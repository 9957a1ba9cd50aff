import Dam.Path
import Dam.Text.Utf8

/-!
# File trees

The files and directories that a build works on, and the current directory. A place
in the tree is a `Location`, the names from the innermost outwards, so the directory
around a place is its tail. `FileTree.resolve` finds the location of a path; it goes
through directories that exist, follows links, and follows `..` from where it is.

A tree does not show everything that decides whether an operation succeeds: rights, the
room that is left, the borders between volumes. `FileTree.refusal` stands for all that.

Reading leaves the tree alone. Everything that changes it is a `Files` action, which
keeps the tree it has reached when it fails.
-/

namespace Dam

/-- Why an operation on files failed. -/
inductive IoError where
  | notFound
  | permissionDenied
  | alreadyExists
  | crossesVolumes
  | notDirectory
  | isDirectory
  | noRoom
  | readOnly
  | nameTooLong
  | tooManyLinks
  | malformedText
  | zeroInPath
  | zeroInArgument
deriving DecidableEq, Repr

/-- The wording of a failure, with the number the operating system has for it. -/
def IoError.message : IoError → String
  | .notFound => "No such file or directory (os error 2)"
  | .permissionDenied => "Permission denied (os error 13)"
  | .alreadyExists => "File exists (os error 17)"
  | .crossesVolumes => "Invalid cross-device link (os error 18)"
  | .notDirectory => "Not a directory (os error 20)"
  | .isDirectory => "Is a directory (os error 21)"
  | .noRoom => "No space left on device (os error 28)"
  | .readOnly => "Read-only file system (os error 30)"
  | .nameTooLong => "File name too long (os error 36)"
  | .tooManyLinks => "Too many levels of symbolic links (os error 40)"
  | .malformedText => "stream did not contain valid UTF-8"
  | .zeroInPath => "file name contained an unexpected NUL byte"
  | .zeroInArgument => "nul byte found in provided data"

/-- A place in a tree: the names from the innermost outwards. The root has none. -/
abbrev Location := List String

/-- Where a piece of a path leads from a location, with `..` taken lexically. -/
def Path.move (l : Location) (segment : String) : Location :=
  if isTrivial segment then l else if segment = ".." then l.tail else segment :: l

/-- Where a path starts, as seen from a directory. -/
def Path.root (base : Location) (p : Path) : Location := if p.isAbsolute then [] else base

/-- The location of a path as seen from a directory, with `..` taken lexically. -/
def Path.locate (base : Location) (p : Path) : Location := p.segments.foldl move (p.root base)

/--
What a name stands for. Files have numbers, and names with the same number are names of
one file. A link stands for another path. A device swallows what is written to it and has
nothing to read.
-/
inductive Entry where
  | file (number : Nat)
  | directory
  | link (target : Path)
  | device
deriving DecidableEq, Repr

/-- The number of a file. -/
def Entry.number? : Entry → Option Nat
  | .file n => some n
  | _ => none

/-- What may be refused for reasons that a tree does not show. -/
inductive Request where
  | read (l : Location)
  /-- To make a file, or to empty it. -/
  | write (l : Location)
  /-- To put content into a file that has been opened for writing. -/
  | fill (l : Location)
  | makeDirectory (l : Location)
  | remove (l : Location)
  | move (l l' : Location)
deriving DecidableEq, Repr

/-- The entries of a tree, the contents of files by their numbers, and the current directory. -/
structure FileTree where
  entries : List (Location × Entry)
  contents : List (Nat × Bytes)
  current : Location
  /-- Why a request is refused, if it is. -/
  refusal : Request → Option IoError := fun _ => none

namespace FileTree

/-- What is at a location. The root is always a directory. -/
def get? (t : FileTree) (l : Location) : Option Entry :=
  if l = [] then some .directory else t.entries.lookup l

/-- Puts an entry at a location. -/
def insert (t : FileTree) (l : Location) (e : Entry) : FileTree :=
  { t with entries := (l, e) :: t.entries.filter fun x => x.1 != l }

/-- Removes the entry at a location. -/
def erase (t : FileTree) (l : Location) : FileTree :=
  { t with entries := t.entries.filter fun x => x.1 != l }

/-- Puts a directory at a location and at all locations around it. -/
def insertDirectories (t : FileTree) : Location → FileTree
  | [] => t
  | name :: outer => (t.insertDirectories outer).insert (name :: outer) .directory

/-- The content of a file. -/
def content (t : FileTree) (n : Nat) : Bytes := (t.contents.lookup n).getD []

/-- Replaces the content of a file. -/
def setContent (t : FileTree) (n : Nat) (content : Bytes) : FileTree :=
  { t with contents := (n, content) :: t.contents.filter fun x => x.1 != n }

/-- A number that no file has. -/
def freshNumber (t : FileTree) : Nat :=
  (t.entries.filterMap fun x => x.2.number?).foldr max 0 + 1

/-- Puts content into the file at a location. If there is none, a new file is made. -/
def put (t : FileTree) (l : Location) (content : Bytes) : FileTree :=
  match t.get? l with
  | some (.file n) => t.setContent n content
  | _ => (t.insert l (.file t.freshNumber)).setContent t.freshNumber content

/-- The directories that every system has. -/
def systemDirectories : List Location :=
  [["bin"], ["dev"], ["etc"], ["home"], ["opt"], ["proc"], ["root"], ["sbin"], ["tmp"], ["usr"],
    ["bin", "usr"], ["lib", "usr"], ["local", "usr"], ["bin", "local", "usr"], ["sbin", "usr"],
    ["share", "usr"], ["var"], ["tmp", "var"]]

/-- A tree with just the current directory, those around it, the system's, and `/dev/null`. -/
def base (current : Location) : FileTree :=
  let system := systemDirectories.map fun l => (l, Entry.directory)
  insertDirectories ⟨(["null", "dev"], .device) :: system, [], current, fun _ => none⟩ current

/-! ## Finding the place of a path -/

/-- The longest name of an entry, in bytes. -/
def nameLimit : Nat := 255

/-- The longest spelling of a path, in bytes. -/
def pathLimit : Nat := 4095

/-- How many links are followed on the way of one path. -/
def linkLimit : Nat := 40

/-- Goes from a directory to what a piece of a path means there. -/
def enter (t : FileTree) (l : Location) (segment : String) : Except IoError Location :=
  match t.get? l with
  | none => .error .notFound
  | some .directory =>
    if Path.isTrivial segment then .ok l
    else if segment = ".." then .ok l.tail
    else if nameLimit < segment.utf8ByteSize then .error .nameTooLong
    else .ok (segment :: l)
  | some _ => .error .notDirectory

/--
Follows the pieces of a path from a directory, up to the first link on the way: `jump` goes
on from there, with the pieces of the link in front of those that are left. A link at the
end of the way is followed only if `last` is set.
-/
def walk (t : FileTree) (last : Bool) (jump : Location → List String → Except IoError Location) :
    Location → List String → Except IoError Location
  | l, [] => .ok l
  | l, segment :: rest =>
    match t.enter l segment with
    | .error e => .error e
    | .ok l' =>
      match t.get? l' with
      | some (.link target) =>
        if rest.isEmpty && !last then .ok l'
        else jump (target.root l) (target.segments ++ rest)
      | _ => walk t last jump l' rest

/-- Follows the pieces of a path from a directory, through at most `n` links. -/
def walkUpTo (t : FileTree) (last : Bool) : Nat → Location → List String → Except IoError Location
  | 0 => t.walk last fun _ _ => .error .tooManyLinks
  | n + 1 => t.walk last (t.walkUpTo last n)

/-- Follows pieces from where a path starts. -/
def follow (t : FileTree) (last : Bool) (p : Path) (segments : List String) :
    Except IoError Location :=
  t.walkUpTo last linkLimit (p.root t.current) segments

/-- Refuses what is no path for the operating system. -/
def checkSpelling (p : Path) : Except IoError Unit :=
  if p.text.toList.contains '\x00' then .error .zeroInPath
  else if p.isEmpty then .error .notFound
  else if pathLimit < p.text.utf8ByteSize then .error .nameTooLong
  else .ok ()

/-- The location a path leads to. There need not be an entry yet, but there is a directory for it. -/
def resolve (t : FileTree) (p : Path) : Except IoError Location := do
  checkSpelling p
  t.follow true p p.segments

/-- The location of the name at the end of a path, whether or not it is a link. -/
def resolveName (t : FileTree) (p : Path) : Except IoError Location := do
  checkSpelling p
  t.follow false p p.segments

/-- The same for a path whose slashes at the end do not count. -/
def resolveBare (t : FileTree) (p : Path) : Except IoError Location := do
  checkSpelling p
  t.follow false p (p.segments.reverse.dropWhile (· == "")).reverse

/-! ## Reading -/

/-- What is at a path, if it leads anywhere. -/
def entry? (t : FileTree) (p : Path) : Option Entry :=
  match t.resolve p with
  | .ok l => t.get? l
  | .error _ => none

/-- Whether there is a file at a path. -/
def isFile (t : FileTree) (p : Path) : Bool :=
  match t.entry? p with
  | some (.file _) => true
  | _ => false

/-- Whether there is a directory at a path. -/
def isDirectory (t : FileTree) (p : Path) : Bool :=
  match t.entry? p with
  | some .directory => true
  | _ => false

/-- What can be read at a location. -/
def readAt (t : FileTree) (l : Location) : Except IoError Bytes :=
  match t.get? l with
  | none => .error .notFound
  | some .directory => .error .isDirectory
  | some (.link _) => .error .tooManyLinks
  | some .device => .ok []
  | some (.file n) =>
    match t.refusal (.read l) with
    | some e => .error e
    | none => .ok (t.content n)

/-- The content of a file. -/
def read (t : FileTree) (p : Path) : Except IoError Bytes := do t.readAt (← t.resolve p)

/-- The content of a file as text. -/
def readText (t : FileTree) (p : Path) : Except IoError String := do
  match Utf8.decode? (← t.read p) with
  | some s => .ok s
  | none => .error .malformedText

/-- The path of the current directory. -/
def currentPath (t : FileTree) : Path :=
  if t.current = [] then ⟨["", ""]⟩ else ⟨"" :: t.current.reverse⟩

end FileTree

/-! ## Changing -/

/-- An action on a tree, which may fail. -/
abbrev Files := ExceptT IoError (StateM FileTree)

namespace Files

/-- A question about the tree. -/
def ask {α : Type} (f : FileTree → Except IoError α) : Files α := do
  match f (← get) with
  | .ok a => return a
  | .error e => throw e

/-- Goes on unless a request is refused. -/
def permit (r : Request) : Files Unit := do
  match (← get).refusal r with
  | some e => throw e
  | none => return ()

/--
Opens a file for writing, which need not exist yet, and empties it. A path that ends in a
slash names no file. A device has no place for content.
-/
def openEmpty (p : Path) : Files (Option Location) := do
  if p.segments.getLast? = some "" then
    let _ ← ask (·.resolveBare p)
    throw .isDirectory
  let l ← ask (·.resolve p)
  match (← get).get? l with
  | some .directory => throw .isDirectory
  | some (.link _) => throw .tooManyLinks
  | some .device => return none
  | some (.file _) | none =>
    permit (.write l)
    modify (·.put l [])
    return some l

/-- Puts content into a file that has been opened. -/
def fill (place : Option Location) (content : Bytes) : Files Unit :=
  match place with
  | none => return ()
  | some l => do
    permit (.fill l)
    modify (·.put l content)

/-- Writes a file. If there is no room for the content, the file is left empty. -/
def write (p : Path) (content : Bytes) : Files Unit := do fill (← openEmpty p) content

/-- Makes a directory where nothing is. -/
def makeDirectory (p : Path) : Files Unit := do
  let l ← ask (·.resolveBare p)
  match (← get).get? l with
  | some _ => throw .alreadyExists
  | none =>
    permit (.makeDirectory l)
    modify (·.insert l .directory)

/-- Makes a directory; one that is there already will do. -/
def ensureDirectory (p : Path) : Files Unit := do
  match (makeDirectory p).run (← get) with
  | (.ok (), t) => set t
  | (.error e, _) => if (← get).isDirectory p then return () else throw e

/-- Makes the first path a directory; the others are those above it, made if needed. -/
def ensureDirectories : List Path → Files Unit
  | [] => return ()
  | p :: above => do
    if p.isEmpty then return ()
    match (ensureDirectory p).run (← get) with
    | (.ok (), t) => set t
    | (.error .notFound, _) =>
      ensureDirectories above
      ensureDirectory p
    | (.error e, _) => throw e

/-- Makes a directory with all directories above it. -/
def makeDirectories (p : Path) : Files Unit := ensureDirectories p.ancestors

/-- Removes a file, or a link. -/
def remove (p : Path) : Files Unit := do
  let l ← ask (·.resolveName p)
  match (← get).get? l with
  | none => throw .notFound
  | some .directory => throw .isDirectory
  | some .device => throw .permissionDenied
  | some _ =>
    permit (.remove l)
    modify (·.erase l)

/--
Moves a file or a link, over another one if need be. Two names of one file are left as they
are.
-/
def rename (source target : Path) : Files Unit := do
  let l ← ask (·.resolveName source)
  let l' ← ask (·.resolveName target)
  permit (.move l l')
  match (← get).get? l, (← get).get? l' with
  | none, _ => throw .notFound
  | some .directory, _ => throw .isDirectory
  | some .device, _ => throw .permissionDenied
  | some _, some .directory => throw .isDirectory
  | some e, other =>
    if l = l' ∨ e.number?.isSome ∧ other = some e then return ()
    modify fun t => (t.erase l).insert l' e

/-- Copies a file. The target is emptied first, even if it is the same file. -/
def copy (source target : Path) : Files Unit := do
  let _ ← ask (·.read source)
  let place ← openEmpty target
  fill place (← ask (·.read source))

end Files

end Dam
