import Dam.Build
import Dam.Manifest.Toml
import Dam.Program.Json

/-!
# The command line

What the program does with its arguments, as a function of a file tree: the text on
its two output streams, its exit status and the changed tree. The outer layer only
has to carry this out.
-/

namespace Dam

namespace CommandLine

/-- The state of a run: the files, and what has been written so far. -/
structure State where
  files : FileTree
  stdout : String
  stderr : String

/-- A run, which may stop early with an exit status. -/
abbrev Run := ExceptT Nat (StateM State)

/-- The end of a run. -/
structure Result where
  files : FileTree
  stdout : String
  stderr : String
  status : Nat

/-- The version of the program. -/
def version : String := "0.3.0"

/-- How the program is used, line by line. -/
def usageLines : List String :=
  ["damc: compiler for the dam language, targeting the JVM via Jasmin",
    "",
    "Usage:",
    "  damc compile <file.dam> [-o out.j]         Compile to Jasmin assembly",
    "  damc check   <file.dam>                    Type-check and generate only",
    "  damc ast     <file.dam> [-o out.json]      Print AST as JSON",
    "  damc build   <file.dam> [--config dam.toml] Compile, assemble, place .class",
    "  damc help                                  Show this message",
    "  damc version                               Show version",
    "",
    "Options:",
    "  -v, --verbose   Debug logging (otherwise RUST_LOG, default warn)",
    "",
    "To assemble and run by hand:",
    "  damc compile hello.dam -o Hello.j",
    "  jasmin Hello.j && java Hello"]

/-- How the program is used. -/
def usage : String := "\n".intercalate usageLines ++ "\n"

/-- Writes to the standard output. -/
def print (s : String) : Run Unit := modify fun st => { st with stdout := st.stdout ++ s }

/-- Writes a line to the error stream. -/
def complain (s : String) : Run Unit :=
  modify fun st => { st with stderr := st.stderr ++ s ++ "\n" }

/-- Stops the run as failed, with a complaint. -/
def fail {α : Type} (message : String) : Run α := do
  complain ("error: " ++ message)
  throw 1

/-- Works on files. -/
def onFiles {ε α : Type} (x : ExceptT ε (StateM FileTree) α) : Run (Except ε α) := do
  let (r, files) := x.run (← get).files
  modify fun st => { st with files := files }
  return r

/-- The source in a file. -/
def readSource (file : String) : Run String := do
  match (← get).files.readText (.ofText file) with
  | .ok s => return s
  | .error e => fail ("cannot read '" ++ file ++ "': " ++ e.message)

/-- Writes a file. -/
def writeOutput (file content : String) : Run Unit := do
  match ← onFiles (Files.write (.ofText file) (Utf8.encode content)) with
  | .ok () => return ()
  | .error e => fail ("cannot write '" ++ file ++ "': " ++ e.message)

/-- A diagnostic with the file it is about. -/
def diagnosticText (file : String) (d : Diagnostic) : String :=
  match d.line with
  | some n => file ++ ":" ++ toString n ++ ": " ++ d.message
  | none => file ++ ": " ++ d.message

/-- Stops the run because of what is wrong with a source. -/
def reject {α : Type} (file : String) (ds : List Diagnostic) : Run α := do
  for d in ds do
    complain (diagnosticText file d)
  throw 1

/-! ## Options -/

/--
The value of an option that may be given among the arguments; the last one counts.
Anything else is warned about.
-/
def optionValue (option : String) (value : Option String) : List String → Run (Option String)
  | [] => return value
  | a :: as =>
    if a = option then
      match as with
      | v :: as => optionValue option (some v) as
      | [] => fail (option ++ " requires an argument")
    else do
      complain ("warning: unknown option '" ++ a ++ "'")
      optionValue option value as

/-- The source file and the value of an option. -/
def fileAndOption (option : String) : List String → Run (String × Option String)
  | [] => fail "no input file specified"
  | file :: args => do
    let value ← optionValue option none args
    return (file, value)

/-! ## Commands -/

/-- Compiles a source to class text. -/
def runCompile (args : List String) : Run Unit := do
  let (file, output) ← fileAndOption "-o" args
  let source ← readSource file
  let path := Path.ofText file
  let name ←
    match classNameOf path with
    | .ok name => pure name
    | .error e => fail e.message
  match compile source name path.fileName? with
  | .error e => reject file e.diagnostics
  | .ok text =>
    match output with
    | none => print text
    | some target =>
      writeOutput target text
      complain ("wrote " ++ target)

/-- Checks a source. -/
def runCheck (args : List String) : Run Unit := do
  let (file, _) ← fileAndOption "-o" args
  let source ← readSource file
  match checkDiagnostics source with
  | [] => complain ("ok: " ++ file ++ " passed all checks")
  | ds => reject file ds

/-- Shows the tree of a source. -/
def runAst (args : List String) : Run Unit := do
  let (file, output) ← fileAndOption "-o" args
  let source ← readSource file
  match parseSource source with
  | .error e => reject file e.diagnostics
  | .ok p =>
    match output with
    | none => print (p.toJson.pretty ++ "\n")
    | some target => writeOutput target p.toJson.pretty

/-- The manifest of a build: the one that is asked for, or the nearest one. -/
def manifestFor (file : Path) (config : Option String) : Run Manifest := do
  let files := (← get).files
  let found :=
    match config with
    | some p => Manifest.load Manifest.parse? files (.ofText p)
    | none =>
      let start :=
        match file.parent? with
        | some dir => if dir.isEmpty then files.currentPath else dir
        | none => files.currentPath
      (Manifest.discover Manifest.parse? files start).map fun (found : Option (Path × Manifest)) =>
        (found.map Prod.snd).getD Manifest.default
  match found with
  | .ok m => return m
  | .error e => fail e.message

/-- Builds a source. -/
def runBuild (runner : Runner) (args : List String) : Run Unit := do
  let (file, config) ← fileAndOption "--config" args
  let path := Path.ofText file
  let manifest ← manifestFor path config
  match ← onFiles (Build.build runner manifest path) with
  | .error e => fail e.message
  | .ok made =>
    match made.assembly with
    | some p => complain ("wrote " ++ p.text)
    | none => pure ()
    complain ("wrote " ++ made.classFile.text)

/-- Runs the command that the arguments name. A source file alone is compiled. -/
def dispatch (runner : Runner) : List String → Run Unit
  | [] => do
    print usage
    throw 1
  | "compile" :: args => runCompile args
  | "check" :: args => runCheck args
  | "ast" :: args => runAst args
  | "build" :: args => runBuild runner args
  | "help" :: _ | "--help" :: _ | "-h" :: _ => print usage
  | "version" :: _ | "--version" :: _ => print ("damc " ++ version ++ "\n")
  | other :: args =>
    if other.endsWith ".dam" then runCompile (other :: args)
    else do
      complain ("error: unknown command '" ++ other ++ "'\n")
      print usage
      throw 1

/-- Options that have no influence on what is written. -/
def isVerbose (arg : String) : Bool := arg == "-v" || arg == "--verbose"

/-- Runs the program with its arguments. -/
def run (runner : Runner) (args : List String) (files : FileTree) : Result :=
  let args := args.filter fun a => !isVerbose a
  match (dispatch runner args).run ⟨files, "", ""⟩ with
  | (.ok (), st) => ⟨st.files, st.stdout, st.stderr, 0⟩
  | (.error status, st) => ⟨st.files, st.stdout, st.stderr, status⟩

/-! ## The files a run is concerned with -/

/-- The paths that a run may read: those among its arguments, and the manifests above them. -/
def inputs (args : List String) (files : FileTree) : List Path :=
  let named := args.map Path.ofText
  named ++ (files.currentPath :: named.map Path.directory).flatMap Manifest.candidates

/-- The paths that a build may write, once its manifest can be read. -/
def outputs (args : List String) (files : FileTree) : List Path :=
  match args.filter fun a => !isVerbose a with
  | "build" :: file :: rest =>
    let source := Path.ofText file
    let step := do
      let config ← optionValue "--config" none rest
      manifestFor source config
    match step.run ⟨files, "", ""⟩ with
    | (.ok m, _) =>
      let names := [source.stem ++ ".j", source.stem ++ ".class"].map Path.ofText
      [m.outputDirectory source, source.directory].flatMap fun dir =>
        dir :: names.map fun n => dir.join n
    | (.error _, _) => []
  | _ => []

end CommandLine

end Dam
