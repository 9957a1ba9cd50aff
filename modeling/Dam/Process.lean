import Dam.FileTree

/-!
# Running programs

What a build has to know about the programs it runs: a command goes in, and out come
a status, the two output streams and a changed file tree. How a program is run is a
parameter of the build (`Runner`).
-/

namespace Dam

/-- A program and its arguments. -/
structure Command where
  program : String
  args : List String
deriving DecidableEq, Repr

/-- How a program ended. -/
inductive ExitStatus where
  | code (n : Nat)
  | signal (n : Nat)
deriving DecidableEq, Repr

namespace ExitStatus

/-- Whether the program reported success. -/
def isSuccess (s : ExitStatus) : Bool := s == .code 0

/-- The names of signals. -/
def signalNames : List (Nat × String) :=
  [(1, "SIGHUP"), (2, "SIGINT"), (3, "SIGQUIT"), (4, "SIGILL"), (5, "SIGTRAP"), (6, "SIGABRT"),
    (7, "SIGBUS"), (8, "SIGFPE"), (9, "SIGKILL"), (10, "SIGUSR1"), (11, "SIGSEGV"),
    (12, "SIGUSR2"), (13, "SIGPIPE"), (14, "SIGALRM"), (15, "SIGTERM"), (16, "SIGSTKFLT"),
    (17, "SIGCHLD"), (18, "SIGCONT"), (19, "SIGSTOP"), (20, "SIGTSTP"), (21, "SIGTTIN"),
    (22, "SIGTTOU"), (23, "SIGURG"), (24, "SIGXCPU"), (25, "SIGXFSZ"), (26, "SIGVTALRM"),
    (27, "SIGPROF"), (28, "SIGWINCH"), (29, "SIGIO"), (30, "SIGPWR"), (31, "SIGSYS")]

/-- The status as messages show it. -/
def text : ExitStatus → String
  | .code n => "exit status: " ++ toString n
  | .signal n =>
    match signalNames.lookup n with
    | some name => "signal: " ++ toString n ++ " (" ++ name ++ ")"
    | none => "signal: " ++ toString n

end ExitStatus

/-- What a program leaves behind, apart from files. -/
structure Completed where
  status : ExitStatus
  stdout : Bytes
  stderr : Bytes
deriving DecidableEq, Repr

/-- A way to run commands. It fails if the program cannot be started. -/
abbrev Runner := Command → Files Completed

end Dam
