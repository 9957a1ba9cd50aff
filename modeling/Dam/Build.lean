import Dam.ClassName
import Dam.Compile
import Dam.Manifest
import Dam.Process

/-!
# Builds

A build compiles a source file, writes the class text `Name.j`, runs the assembler on
it and puts the class file `Name.class` next to the source. Class text and assembler
output go to the output directory, which is that of the source unless the manifest
says otherwise.

The steps come in an order that keeps failures harmless: nothing is written before
the source has been compiled.
-/

namespace Dam

/-- What a build was doing with a file when it failed. -/
inductive FileAction where
  | read | create | write | run | copy | remove
deriving DecidableEq, Repr

/-- The action as messages show it. -/
def FileAction.text : FileAction → String
  | .read => "read"
  | .create => "create"
  | .write => "write"
  | .run => "run"
  | .copy => "copy"
  | .remove => "remove"

/-- Why a build failed. -/
inductive BuildError where
  | io (action : FileAction) (path : Path) (error : IoError)
  | compile (path : Path) (error : CompileError)
  | invalidClassName (name : String)
  | assemblerFailed (program detail : String)
deriving DecidableEq, Repr

/-- The wording of an error. -/
def BuildError.message : BuildError → String
  | .io action p e => "cannot " ++ action.text ++ " '" ++ p.text ++ "': " ++ e.message
  | .compile p e => p.text ++ ":\n" ++ e.message
  | .invalidClassName name => "'" ++ name ++ "' is not a valid JVM class name"
  | .assemblerFailed program detail => "assembler '" ++ program ++ "' failed: " ++ detail

/-- A step of a build. -/
abbrev BuildStep := ExceptT BuildError (StateM FileTree)

/-- What a build leaves behind. The class text is kept only if the manifest says so. -/
structure Artifacts where
  assembly : Option Path
  classFile : Path
deriving DecidableEq, Repr

/-- The name of the class that a source file compiles to. -/
def classNameOf (source : Path) : Except BuildError String :=
  match source.className? with
  | some name => .ok name
  | none => .error (.invalidClassName source.stem)

/-- The directory that output goes to. -/
def Manifest.outputDirectory (m : Manifest) (source : Path) : Path :=
  match m.outDir with
  | some dir => source.directory.join dir
  | none => source.directory

namespace Build

/-- Works on a file. -/
def attempt {α : Type} (action : FileAction) (p : Path) (x : Files α) : BuildStep α :=
  x.adapt fun e => .io action p e

/-- A result that does not depend on files. -/
def ofExcept {α : Type} : Except BuildError α → BuildStep α
  | .ok a => return a
  | .error e => throw e

/-- Compiles a source file and writes its class text into the output directory. -/
def writeAssembly (m : Manifest) (source : Path) : BuildStep Path := do
  let name ← ofExcept (classNameOf source)
  let text ← attempt .read source (Files.ask (·.readText source))
  let classText ← ofExcept ((compile text name source.fileName?).mapError (.compile source))
  let dir := m.outputDirectory source
  attempt .create dir (Files.makeDirectories dir)
  let target := dir.join (.ofText (name ++ ".j"))
  attempt .write target (Files.write target (Utf8.encode classText))
  return target

/-- The command that assembles a class text. -/
def assemblerCommand (m : Manifest) (dir assembly : Path) : Command :=
  ⟨m.program, m.args ++ ["-d", dir.text, assembly.text]⟩

/-- Why the assembler failed: its complaints, or just its status. -/
def failureDetail (c : Completed) : String :=
  let complaints := Text.trim (Utf8.decodeLossy c.stderr)
  if complaints.isEmpty then c.status.text else complaints

/-- Runs the assembler. -/
def assemble (run : Runner) (m : Manifest) (dir assembly : Path) : BuildStep Unit := do
  let done ← attempt .run (.ofText m.program) (run (assemblerCommand m dir assembly))
  if !done.status.isSuccess then throw (.assemblerFailed m.program (failureDetail done))

/-- Moves a file. Where that is refused it is copied and then removed. -/
def relocate (source target : Path) : BuildStep Unit := do
  match (Files.rename source target).run (← get) with
  | (.ok (), t) => set t
  | (.error _, _) =>
    attempt .copy source (Files.copy source target)
    attempt .remove source (Files.remove source)

/-- Compiles and assembles a source file. -/
def build (run : Runner) (m : Manifest) (source : Path) : BuildStep Artifacts := do
  let name ← ofExcept (classNameOf source)
  let assembly ← writeAssembly m source
  let dir := m.outputDirectory source
  assemble run m dir assembly
  let fileName := name ++ ".class"
  let produced := dir.join (.ofText fileName)
  if !(← get).isFile produced then
    throw (.assemblerFailed m.program ("no " ++ fileName ++ " in " ++ dir.text))
  let classFile := source.directory.join (.ofText fileName)
  if produced.components ≠ classFile.components then relocate produced classFile
  if m.keepAssembly then return ⟨some assembly, classFile⟩
  attempt .remove assembly (Files.remove assembly)
  return ⟨none, classFile⟩

end Build

end Dam
