import Dam.FileTree

/-!
# Manifests

The settings of a build stand in a file `dam.toml`, next to the source or in a
directory above it. How settings are written in such a file is left open here: loading and
finding one take the reader of its text as a parameter.
-/

namespace Dam

/-- The settings of a build. -/
structure Manifest where
  /-- Where output goes, as seen from the directory of the source. -/
  outDir : Option Path
  /-- Whether the assembly text is kept after assembling. -/
  keepAssembly : Bool
  /-- The assembler. -/
  program : String
  /-- The first arguments of the assembler. -/
  args : List String
deriving DecidableEq, Repr

/-- Why there are no settings. -/
inductive ManifestError where
  | read (path : Path) (error : IoError)
  | parse (path : Option Path)
deriving DecidableEq, Repr

namespace Manifest

/-- The name of the file with the settings. -/
def fileName : String := "dam.toml"

/-- The settings of an empty manifest. -/
def default : Manifest := ⟨none, true, "jasmin", []⟩

instance : Inhabited Manifest := ⟨default⟩

end Manifest

/-- The wording of an error. -/
def ManifestError.message : ManifestError → String
  | .read p e => "cannot read '" ++ p.text ++ "': " ++ e.message
  | .parse p =>
    "failed to parse " ++ (p.map Path.text).getD Manifest.fileName
      ++ ": TOML parse error: not a list of known settings"

namespace Manifest

/-- The settings that a text stands for, if it can be read. -/
abbrev Reader := String → Option Manifest

/-- The settings in a file. -/
def load (read : Reader) (t : FileTree) (p : Path) : Except ManifestError Manifest :=
  match t.readText p with
  | .error e => .error (.read p e)
  | .ok text =>
    match read text with
    | some m => .ok m
    | none => .error (.parse (some p))

/-- Where a manifest is looked for: in a directory and then in those above it. -/
def candidates (start : Path) : List Path :=
  start.ancestors.map fun dir => dir.join (Path.ofText fileName)

/-- The nearest manifest and its settings. -/
def discover (read : Reader) (t : FileTree) (start : Path) :
    Except ManifestError (Option (Path × Manifest)) :=
  match (candidates start).find? t.isFile with
  | none => .ok none
  | some p => (load read t p).map fun m => some (p, m)

end Manifest

end Dam
