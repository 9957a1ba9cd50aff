import Dam.Manifest
import Dam.Toml.Reader

/-!
# Manifests in TOML

The reader of manifests. Every setting can be left out; none that is not known can be
given. A table of settings may also be written as an array of their values in order.
-/

namespace Dam

namespace Manifest

/-- The content of a table of the document, wherever it is given. -/
def tableOf (d : Toml.Document) (name : String) : Toml :=
  match d.assignments.find? fun a => a.path == [name] with
  | some a => a.value
  | none =>
    .table (d.assignments.filterMap fun a =>
      match a.path with
      | n :: key => if n = name then some (key, a.value) else none
      | [] => none)

/-- The values of named fields, which may be missing; no others may be there. -/
def fieldsOf (names : List String) : Toml → Option (List (Option Toml))
  | .table pairs =>
    if pairs.all fun p => names.any fun n => p.1 == [n] then
      some (names.map fun n => pairs.lookup [n])
    else none
  | .array items => some ((List.range names.length).map fun n => items[n]?)
  | _ => none

/-- A setting that is a text. -/
def textOf : Toml → Option String
  | .string s => some s
  | _ => none

/-- A setting that is a truth value. -/
def boolOf : Toml → Option Bool
  | .bool b => some b
  | _ => none

/-- A setting that is a list of texts. -/
def textsOf : Toml → Option (List String)
  | .array items => items.mapM textOf
  | _ => none

/-- The value of a setting, or its default if it is missing. -/
def orDefault {α : Type} (read : Toml → Option α) (other : α) : Option Toml → Option α
  | some v => read v
  | none => some other

/-- The settings in a document. -/
def ofDocument? (d : Toml.Document) : Option Manifest := do
  let tables := ["build", "assembler"]
  if !(d.headers.all fun h => tables.any fun n => h == [n]) then none
  if !(d.assignments.all fun a => tables.any fun n => a.path.head? == some n) then none
  match ← fieldsOf ["out_dir", "keep_assembly"] (tableOf d "build"),
      ← fieldsOf ["program", "args"] (tableOf d "assembler") with
  | [outDir, keep], [program, args] =>
    some {
      outDir := ← orDefault (fun v => (textOf v).map fun s => some (Path.ofText s)) none outDir
      keepAssembly := ← orDefault boolOf default.keepAssembly keep
      program := ← orDefault textOf default.program program
      args := ← orDefault textsOf default.args args }
  | _, _ => none

/-- The settings in a text. -/
def parse? (text : String) : Option Manifest := Toml.parse? text >>= ofDocument?

/-- The settings in a text that comes from no file. -/
def ofText (text : String) : Except ManifestError Manifest :=
  match parse? text with
  | some m => .ok m
  | none => .error (.parse none)

end Manifest

end Dam
