import Dam.CommandLine
import Dam.Shell.Run

/-!
# The program

Reads the files that a run is concerned with into a file tree, runs the command line
on it, and carries out what has changed. Assemblers are run by the built-in shell.
-/

namespace Dam.Main

/-- The spelling of a location. -/
def spelling (l : Location) : String := "/" ++ "/".intercalate l.reverse

/-- Adds what is on disk at a location. What cannot be looked at is not there. -/
def probe (t : FileTree) (l : Location) : IO FileTree := do
  try
    let path ← IO.FS.realPath (spelling l)
    if ← path.isDir then return t.insert l .directory
    return t.put l (← IO.FS.readBinFile path).toList
  catch _ => return t

/-- Adds what is on disk at a location and around it. -/
def load (t : FileTree) : Location → IO FileTree
  | [] => return t
  | name :: outer => do probe (← load t outer) (name :: outer)

/-- Adds what is on disk at paths. -/
def loadAll (t : FileTree) (ps : List Path) : IO FileTree :=
  ps.foldlM (fun t p => load t (p.locate t.current)) t

/-- Makes the disk at a location what it is in the tree. Links were followed when it was read. -/
def store (t : FileTree) (l : Location) : IO Unit := do
  match t.get? l with
  | some .directory => IO.FS.createDirAll (spelling l)
  | some (.file n) => IO.FS.writeBinFile (spelling l) (t.content n).toByteArray
  | some .device | some (.link _) => return ()
  | none => IO.FS.removeFile (spelling l)

/-- Whether two trees have the same at a location. -/
def agree (t t' : FileTree) (l : Location) : Bool :=
  match t.get? l, t'.get? l with
  | some (.file n), some (.file n') => t.content n == t'.content n'
  | e, e' => e == e'

/-- Carries out the changes from one tree to another, directories from the outside inwards. -/
def storeChanges (before after : FileTree) : IO Unit := do
  let touched := (after.entries ++ before.entries).map Prod.fst
  let changed := touched.eraseDups.filter fun l => !agree before after l
  for l in changed.mergeSort fun a b => a.length ≤ b.length do
    store after l

end Dam.Main

open Dam in
/-- Runs the command line. -/
def main (args : List String) : IO UInt32 := do
  let here := (Path.ofText (← IO.currentDir).toString).locate []
  let start := FileTree.base here
  let first ← Main.loadAll start (CommandLine.inputs args start)
  let before ← Main.loadAll first (CommandLine.outputs args first)
  let result := CommandLine.run Shell.runner args before
  IO.print result.stdout
  IO.eprint result.stderr
  Main.storeChanges before result.files
  return result.status.toUInt32
