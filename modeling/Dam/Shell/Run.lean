import Dam.Process
import Dam.Shell.Awk
import Dam.Shell.Reader

/-!
# Running shell scripts

An interpreter of scripts on a file tree, with the few programs that scripts around an
assembler call. `Shell.runner` runs commands without leaving the tree, so that builds can be
carried out where no other program can be run.

Scripts may not end. Running one therefore takes `fuel`, which bounds how deep statements are
nested and how often loops turn. Commands in the background are run at once.
-/

namespace Dam.Shell

/-! ## State -/

/-- Where output goes. -/
inductive Sink where
  | buffer (n : Nat)
  | file (l : Location)
  | nothing

/-- The state of a script. -/
structure State where
  files : FileTree
  /-- What has been collected: the output and the complaints of the script, and outputs that go
  into words. -/
  buffers : Array Bytes
  out : Sink
  err : Sink
  /-- The name of the script and its arguments. -/
  args : List String
  values : List (String × String)
  /-- The status of the last command. -/
  status : Nat
  /-- The commands that were run in the background, with their statuses. -/
  jobs : List (Nat × Nat)
  /-- How many letters `getopts` has taken from the current word. -/
  letters : Nat

/-- An action of a script, which may end it. -/
abbrev Sh := ExceptT ExitStatus (StateM State)

namespace Sh

/-- Sets the status. -/
def setStatus (n : Nat) : Sh Unit := modify fun s => { s with status := n }

/-- The value of a name, empty if there is none. -/
def valueOf (x : String) : Sh String := do return ((← get).values.lookup x).getD ""

/-- Gives a name a value. -/
def assign (x v : String) : Sh Unit :=
  modify fun s => { s with values := (x, v) :: s.values.filter fun y => y.1 != x }

/-- Carries out an action on files. -/
def onFiles {α : Type} (x : Files α) : Sh (Except IoError α) := do
  let (r, t) := x.run (← get).files
  modify fun s => { s with files := t }
  return r

/-- Writes bytes to a sink. -/
def emit (sink : Sink) (bytes : Bytes) : Sh Unit :=
  modify fun s =>
    match sink with
    | .nothing => s
    | .buffer n => { s with buffers := s.buffers.modify n (· ++ bytes) }
    | .file l =>
      match s.files.get? l with
      | some (.file n) => { s with files := s.files.setContent n (s.files.content n ++ bytes) }
      | _ => s

/-- Writes to the output. -/
def print (text : String) : Sh Unit := do emit (← get).out (toBytes text)

/-- Writes a line to the complaints. -/
def complain (text : String) : Sh Unit := do emit (← get).err (toBytes (text ++ "\n"))

/-- Fails with a complaint. -/
def fail (status : Nat) (text : String) : Sh Unit := do
  complain text
  setStatus status

/-- Runs something that leaves nothing behind but files and output. Gives how it has ended. -/
def inSubshell (x : Sh Unit) : Sh ExitStatus := do
  let before ← get
  let (r, after) := x.run before
  set { before with
    files := { after.files with current := before.files.current }
    buffers := after.buffers }
  match r with
  | .error e => return e
  | .ok () => return .code after.status

/-- Takes the end of something for the current status. -/
def conclude : ExitStatus → Sh Unit
  | .code n => setStatus n
  | .signal n => setStatus (128 + n)

end Sh

/-! ## Words -/

/-- The characters that values are split at. -/
def isSeparator (c : Char) : Bool := c == ' ' || c == '\t' || c == '\n'

/-- The fields of a word so far, backwards, and the one that is not finished. -/
structure Fields where
  done : List String
  last : Option String

namespace Fields

/-- Adds text to the last field. -/
def add (f : Fields) (s : String) : Fields := { f with last := some (f.last.getD "" ++ s) }

/-- Ends the last field. -/
def close (f : Fields) : Fields :=
  match f.last with
  | some s => ⟨s :: f.done, none⟩
  | none => f

/-- Adds a value that is split at blanks. -/
def addSplit (f : Fields) (s : String) : Fields :=
  s.toList.foldl (fun f c => if isSeparator c then f.close else f.add (String.singleton c)) f

/-- Adds several values, each as a field of its own. -/
def addAll (f : Fields) : List String → Fields
  | [] => f
  | [s] => f.add s
  | s :: rest => (f.add s).close.addAll rest

/-- All fields. -/
def toList (f : Fields) : List String := f.close.done.reverse

end Fields

/-- The value of a parameter. -/
def parameterValue (p : Parameter) : Sh String := do
  let s ← get
  match p with
  | .name x => Sh.valueOf x
  | .argument n => return s.args.getD n ""
  | .arguments | .joined => return " ".intercalate (s.args.drop 1)
  | .count => return toString (s.args.length - 1)
  | .status => return toString s.status
  | .processId => return "1"
  | .jobId => return toString (s.jobs.length + 1)

/-- The value of an arithmetic expression, in which names stand for their values. -/
def arithmetic (expression : String) : Sh String := do
  let values := (← get).values.map fun x => (x.1, Awk.Value.number (Awk.Value.string x.2).toInt)
  let value := do
    let ts ← Awk.tokens (expression.length + 1) expression.toList
    let (e, _) ← (Awk.Read.expression (16 * ts.length + 16)).run ts
    let (v, _) ← (Awk.eval e).run ⟨values, "", ""⟩
    return v.text
  return value.getD "0"

/-- Strips the ends of lines behind a text. -/
def withoutLineEnds (s : String) : String :=
  String.ofList (s.toList.reverse.dropWhile (· == '\n')).reverse

section Words

-- runs a script and gives its output
variable (run : List Statement → Sh String)

mutual

/-- Adds what a piece stands for to the fields of a word. -/
def expandPiece (f : Fields) : Piece → Sh Fields
  | .text s => return f.add s
  | .parameter .arguments true => return f.addAll ((← get).args.drop 1)
  | .parameter p quoted => do
    let v ← parameterValue p
    return if quoted then f.add v else f.addSplit v
  | .output script quoted => do
    let v ← run script
    return if quoted then f.add v else f.addSplit v
  | .arithmetic pieces => do
    let inner ← expandPieces ⟨[], none⟩ pieces
    return f.add (← arithmetic (String.join inner.toList))

/-- Adds what the pieces of a word stand for. -/
def expandPieces (f : Fields) : Word → Sh Fields
  | [] => return f
  | p :: rest => do expandPieces (← expandPiece f p) rest

end

/-- The fields that words stand for. -/
def expandWords (words : List Word) : Sh (List String) := do
  let fields ← words.mapM fun w => do return (← expandPieces run ⟨[], none⟩ w).toList
  return fields.flatten

/-- The text that a word stands for, as one field. -/
def expandText (w : Word) : Sh String := do
  return " ".intercalate (← expandPieces run ⟨[], none⟩ w).toList

/-- Opens a file for output. -/
def openSink (path : String) (append : Bool) : Sh (Option Sink) := do
  let p := toPath path
  let t := (← get).files
  let opened ←
    if append && t.isFile p then pure (.ok (t.resolve p).toOption)
    else Sh.onFiles (Files.openEmpty p)
  match opened with
  | .ok (some l) => return some (.file l)
  | .ok none => return some .nothing
  | .error e =>
    Sh.fail 2 ("sh: cannot create " ++ path ++ ": " ++ e.message)
    return none

/-- Carries out redirections. Tells whether all of them could be done. -/
def redirect : List Redirect → Sh Bool
  | [] => return true
  | .copy stream source :: rest => do
    modify fun s =>
      let sink := if source = 2 then s.err else s.out
      if stream = 2 then { s with err := sink } else { s with out := sink }
    redirect rest
  | .file stream append target :: rest => do
    match ← openSink (← expandText run target) append with
    | none => return false
    | some sink =>
      modify fun s => if stream = 2 then { s with err := sink } else { s with out := sink }
      redirect rest

/-- Does something with output redirected. -/
def redirected (rs : List Redirect) (x : Sh Unit) : Sh Unit := do
  let before ← get
  if ← redirect run rs then x
  modify fun s => { s with out := before.out, err := before.err }

end Words

/-! ## Commands of the shell -/

/-- The character for a letter behind a backslash. -/
def escape? : Char → Option Char
  | '\x5c' => some '\x5c'
  | 'a' => some '\x07'
  | 'b' => some '\x08'
  | 'f' => some '\x0c'
  | 'n' => some '\n'
  | 'r' => some '\r'
  | 't' => some '\t'
  | 'v' => some '\x0b'
  | _ => none

/-- The character that the string behind a backslash stands for, and the rest of the string. -/
def escaped (cs : List Char) : Char × List Char :=
  match cs with
  | [] => ('\x5c', [])
  | c :: rest =>
    match escape? c with
    | some d => (d, rest)
    | none =>
      let octal := (cs.take 3).takeWhile fun d => '0' ≤ d && d ≤ '7'
      if octal.isEmpty then ('\x5c', cs)
      else
        let n := octal.foldl (fun n d => 8 * n + (d.toNat - 48)) 0
        (Char.ofNat (n % 256), cs.drop octal.length)

/-- What a string with escapes stands for. -/
def unescape : (fuel : Nat) → List Char → List Char
  | 0, _ | _, [] => []
  | fuel + 1, '\x5c' :: '0' :: cs => let (c, rest) := escaped ('0' :: cs); c :: unescape fuel rest
  | fuel + 1, '\x5c' :: cs => let (c, rest) := escaped cs; c :: unescape fuel rest
  | fuel + 1, c :: cs => c :: unescape fuel cs

/-- Shows a format once, with arguments in its places. Gives the arguments that are left. -/
def fillFormat : (fuel : Nat) → List Char → List String → List Char × List String
  | 0, _, args | _, [], args => ([], args)
  | fuel + 1, '\x5c' :: cs, args =>
    let (c, rest) := escaped cs
    let (shown, left) := fillFormat fuel rest args
    (c :: shown, left)
  | fuel + 1, '%' :: '%' :: cs, args =>
    let (shown, left) := fillFormat fuel cs args
    ('%' :: shown, left)
  | fuel + 1, '%' :: _ :: cs, args =>
    let (shown, left) := fillFormat fuel cs (args.drop 1)
    ((args.headD "").toList ++ shown, left)
  | fuel + 1, c :: cs, args =>
    let (shown, left) := fillFormat fuel cs args
    (c :: shown, left)

/-- Shows a format as often as its arguments last. -/
def printf (format : String) (args : List String) : Sh Unit := do
  let rec shown : Nat → List String → List Char
    | 0, _ => []
    | n + 1, args =>
      let (cs, left) := fillFormat (format.length + 1) format.toList args
      if left.isEmpty || left.length = args.length then cs else cs ++ shown n left
  Sh.print (String.ofList (shown (args.length + 1) args))
  Sh.setStatus 0

/-- Whether a condition holds. -/
def test (args : List String) : Sh Bool := do
  let t := (← get).files
  match args with
  | ["-f", p] => return t.isFile (toPath p)
  | ["-d", p] => return t.isDirectory (toPath p)
  | ["-e", p] => return (t.entry? (toPath p)).isSome
  | ["-n", s] => return !s.isEmpty
  | ["-z", s] | ["!", s] => return s.isEmpty
  | [a, "=", b] => return a == b
  | [a, "!=", b] => return a != b
  | [s] => return !s.isEmpty
  | _ => return false

/--
Takes the next option from the arguments. The letters of the options are given, with a colon
behind those that have an argument, and one in front if nothing is to be said about others.
-/
def getopts (known name : String) : Sh Unit := do
  let s ← get
  let index := max 1 (digitsValue (← Sh.valueOf "OPTIND").toList)
  let word := (s.args.getD index "").toList
  match word.drop (s.letters + 1) with
  | [] =>
    Sh.assign name "?"
    Sh.setStatus 1
  | c :: rest =>
    if word.head? ≠ some '-' then
      Sh.assign name "?"
      Sh.setStatus 1
    else
      let here (found : Char) (value : String) (next : Nat) (letters : Nat) : Sh Unit := do
        Sh.assign name (String.singleton found)
        Sh.assign "OPTARG" value
        Sh.assign "OPTIND" (toString next)
        modify fun s => { s with letters, status := 0 }
      let next := if rest.isEmpty then index + 1 else index
      let letters := if rest.isEmpty then 0 else s.letters + 1
      match (known.toList.dropWhile (· != c)).drop 1 with
      | ':' :: _ =>
        if rest.isEmpty then here c (s.args.getD (index + 1) "") (index + 2) 0
        else here c (String.ofList rest) (index + 1) 0
      | _ =>
        if known.toList.contains c then here c "" next letters
        else here '?' (String.singleton c) next letters

/-! ## Programs -/

/-- The last name in a path, without an ending. -/
def baseName (path ending : String) : String :=
  let name := (toPath path).components.getLast?.getD ""
  if name.endsWith ending && name != ending then (name.dropEnd ending.length).toString else name

/-- The content of a file, with a complaint if there is none. -/
def readFile (program path : String) : Sh String := do
  match (← get).files.read (toPath path) with
  | .ok bytes => return ofBytes bytes
  | .error e =>
    Sh.fail 1 (program ++ ": " ++ path ++ ": " ++ e.message)
    return ""

/-- Does something to files, with a complaint if it fails. -/
def change (program path : String) (x : Files Unit) : Sh Unit := do
  match ← Sh.onFiles x with
  | .ok () => return ()
  | .error e => Sh.fail 1 (program ++ ": " ++ path ++ ": " ++ e.message)

/-- Removes what is at a location and below it. -/
def eraseBelow (l : Location) (t : FileTree) : FileTree :=
  { t with entries := t.entries.filter fun x => !l.isSuffixOf x.1 }

/-- The first lines of a text. -/
def firstLines (n : Nat) (s : String) : String :=
  "\n".intercalate (((splitAtEach '\n' s.toList).take n).map String.ofList) ++ "\n"

/-- Runs a program by its name. Tells whether there is one. -/
def runProgram (name : String) (args : List String) : Sh Bool := do
  Sh.setStatus 0
  match name, args with
  | "rm", "-rf" :: paths =>
    for p in paths do
      let t := (← get).files
      if let .ok l := t.resolveName (toPath p) then
        modify fun s => { s with files := eraseBelow l t }
  | "rm", paths => for p in paths do change name p (Files.remove (toPath p))
  | "mkdir", paths => for p in paths do change name p (Files.makeDirectory (toPath p))
  | "cp", [p, q] => change name p (Files.copy (toPath p) (toPath q))
  | "cat", paths => for p in paths do Sh.print (← readFile name p)
  | "head", ["-n", n, p] => Sh.print (firstLines (digitsValue n.toList) (← readFile name p))
  | "basename", [p] => Sh.print (baseName p "" ++ "\n")
  | "basename", [p, ending] => Sh.print (baseName p ending ++ "\n")
  | "awk", [program, p] =>
    match Awk.run? program (← readFile name p) with
    | some output => Sh.print output
    | none => Sh.fail 2 "awk: cannot run the program"
  | _, _ =>
    Sh.fail 127 ("sh: " ++ name ++ ": not found")
    return false
  return true

/-- Runs a command: one of the shell's own, or a program. -/
def runCommand (name : String) (args : List String) : Sh Unit := do
  match name, args with
  | "true", _ | ":", _ => Sh.setStatus 0
  | "false", _ => Sh.setStatus 1
  | "echo", args =>
    let line := (" ".intercalate args).toList
    Sh.print (String.ofList (unescape line.length line) ++ "\n")
    Sh.setStatus 0
  | "printf", format :: args => printf format args
  | "exit", n :: _ => throw (.code (digitsValue n.toList % 256))
  | "exit", [] => throw (.code (← get).status)
  | "kill", [signal, _] => throw (.signal (digitsValue (signal.toList.drop 1)))
  | "cd", [p] =>
    let t := (← get).files
    match t.isDirectory (toPath p), t.resolve (toPath p) with
    | true, .ok l =>
      modify fun s => { s with files := { t with current := l } }
      Sh.setStatus 0
    | _, _ => Sh.fail 2 ("sh: cd: can't cd to " ++ p)
  | "shift", args =>
    let n := digitsValue (args.headD "1").toList
    modify fun s => { s with args := s.args.headD "" :: s.args.drop (n + 1), status := 0 }
  | "getopts", [known, x] => getopts known x
  | "wait", [n] => Sh.setStatus (((← get).jobs.lookup (digitsValue n.toList)).getD 127)
  | "wait", _ => Sh.setStatus 0
  | "test", args => Sh.setStatus (if ← test args then 0 else 1)
  | "[", args => Sh.setStatus (if ← test args.dropLast then 0 else 1)
  | name, args => let _ ← runProgram name args

/-! ## Statements -/

/-- Whether a text is what a branch of a choice is for. -/
def fits (text pattern : String) : Bool := pattern == "*" || pattern == text

section Statements

-- runs a statement that is nested in the current one
variable (exec : Statement → Sh Unit)

/-- Runs statements one after the other. -/
def runAll : List Statement → Sh Unit
  | [] => return ()
  | s :: rest => do
    exec s
    runAll rest

/-- Runs a script in a subshell and gives its output, without the ends of lines behind it. -/
def outputOf (script : List Statement) : Sh String := do
  let n := (← get).buffers.size
  modify fun s => { s with buffers := s.buffers.push [] }
  let e ← Sh.inSubshell do
    modify fun s => { s with out := .buffer n }
    runAll exec script
  Sh.conclude e
  return withoutLineEnds (ofBytes ((← get).buffers.getD n []))

/-- Runs a loop, which turns at most `n` times. -/
def runLoop (test body : List Statement) : (n : Nat) → Sh Unit
  | 0 => throw (.code 2)
  | n + 1 => do
    runAll exec test
    if (← get).status = 0 then
      runAll exec body
      runLoop test body n
    else Sh.setStatus 0

/-- Runs the first branch that a text fits. -/
def runBranches (text : String) : List (List Word × List Statement) → Sh Unit
  | [] => Sh.setStatus 0
  | (patterns, body) :: rest => do
    let patterns ← patterns.mapM (expandText (outputOf exec))
    if patterns.any (fits text) then runAll exec body else runBranches text rest

/-- Runs a statement. -/
def runStatement : Statement → Sh Unit
  | .simple assignments words redirects => do
    let fields ← expandWords (outputOf exec) words
    for (x, w) in assignments do
      Sh.assign x (← expandText (outputOf exec) w)
    redirected (outputOf exec) redirects do
      match fields with
      | [] => if !assignments.isEmpty then Sh.setStatus 0
      | name :: args => runCommand name args
  | .both s t => do
    exec s
    if (← get).status = 0 then exec t
  | .either s t => do
    exec s
    if (← get).status ≠ 0 then exec t
  | .background s => do
    let e ← Sh.inSubshell (exec s)
    Sh.conclude e
    modify fun s => { s with jobs := (s.jobs.length + 2, s.status) :: s.jobs, status := 0 }
  | .ifElse test yes no redirects =>
    redirected (outputOf exec) redirects do
      runAll exec test
      let chosen := if (← get).status = 0 then yes else no
      Sh.setStatus 0
      runAll exec chosen
  | .loop test body redirects =>
    redirected (outputOf exec) redirects (runLoop exec test body 1000000)
  | .choose word branches => do
    runBranches exec (← expandText (outputOf exec) word) branches
  | .subshell items redirects => do
    let e ← Sh.inSubshell (redirected (outputOf exec) redirects (runAll exec items))
    Sh.conclude e

end Statements

/-- Runs a statement, in which others may be nested `fuel` deep. -/
def execute : (fuel : Nat) → Statement → Sh Unit
  | 0, _ => throw (.code 2)
  | fuel + 1, s => runStatement (execute fuel) s

/-! ## Commands -/

/-- Runs a script with the name and the arguments that it is given. -/
def runScript (script : String) (args : List String) (t : FileTree) : Completed × FileTree :=
  let action : Sh Unit :=
    match parse? script with
    | some items => runAll (execute 1000) items
    | none => do
      Sh.complain "sh: Syntax error"
      throw (.code 2)
  let (r, s) := action.run
    { files := t, buffers := #[[], []], out := .buffer 0, err := .buffer 1, args
      values := [], status := 0, jobs := [], letters := 0 }
  let e :=
    match r with
    | .error e => e
    | .ok () => .code s.status
  (⟨e, s.buffers.getD 0 [], s.buffers.getD 1 []⟩, { s.files with current := t.current })

/--
Runs scripts of the shell on the tree itself. Files of the tree are no programs, and others do
not exist. A name that leads to a directory cannot be run.
-/
def runner : Runner := fun c => do
  if (c.program :: c.args).any fun a => a.toList.contains '\x00' then throw .zeroInArgument
  match c.program, c.args with
  | "sh", "-c" :: script :: args => modifyGet (runScript (ofText script) (args.map ofText))
  | program, _ =>
    if program.contains '/' ∨ program = "." ∨ program = ".." then
      let l ← Files.ask (·.resolve (.ofText program))
      if ((← get).get? l).isSome then throw .permissionDenied else throw .notFound
    else if FileTree.nameLimit < program.utf8ByteSize then throw .nameTooLong
    else throw .notFound

end Dam.Shell
