import Dam.Text.Split

/-!
# Paths

A path is the list of the pieces between its slashes. The empty piece and `.` stand
for the directory that they occur in, so most of them can be passed over; what
counts is the root in front, a `.` in front, and all names and `..`.

Everything here is lexical: no file is looked at, and `..` is never resolved. Paths
keep their spelling, because it is shown in messages.
-/

namespace Dam

/-- A path, as the pieces between its slashes. -/
structure Path where
  segments : List String
deriving DecidableEq, Repr

namespace Path

/-- The path with a given spelling. -/
def ofText (s : String) : Path := ⟨(splitAtEach '/' s.toList).map String.ofList⟩

/-- The spelling of a path. -/
def text (p : Path) : String := "/".intercalate p.segments

/-- The path with an empty spelling. -/
def empty : Path := ⟨[""]⟩

instance : Inhabited Path := ⟨empty⟩

/-- Whether the spelling is empty. -/
def isEmpty (p : Path) : Bool := p == empty

/-- Whether the path starts at the root. -/
def isAbsolute (p : Path) : Bool :=
  match p.segments with
  | "" :: _ :: _ => true
  | _ => false

/-- Pieces that stay in the directory they occur in. -/
def isTrivial (segment : String) : Bool := segment == "" || segment == "."

/-- The root or the `.` in front. -/
def lead (p : Path) : List String :=
  match p.segments with
  | "" :: _ :: _ => [""]
  | "." :: _ => ["."]
  | _ => []

/-- The pieces after the root or the `.` in front. -/
def body (p : Path) : List String := p.segments.drop p.lead.length

/-- The pieces of the body from the last to the first, without trivial ones at the end. -/
def backwards (p : Path) : List String := p.body.reverse.dropWhile isTrivial

/-- What is left of a path when spelling is disregarded. -/
def components (p : Path) : List String := p.lead ++ p.body.filter fun s => !isTrivial s

/-- The last name of a path. -/
def fileName? (p : Path) : Option String :=
  match p.backwards with
  | [] => none
  | name :: _ => if name = ".." then none else some name

/-- A name up to its last dot. A dot in front does not count. -/
def stemOf (name : String) : String :=
  match name.toList.reverse.dropWhile (· ≠ '.') with
  | _ :: c :: cs => String.ofList (c :: cs).reverse
  | _ => name

/-- The last name of a path up to its last dot, empty if there is no name. -/
def stem (p : Path) : String :=
  match p.fileName? with
  | some name => stemOf name
  | none => ""

/-- The path from a front and the pieces after it. -/
def assemble (lead body : List String) : Path :=
  match lead, body with
  | [], [] => empty
  | [""], [] => ⟨["", ""]⟩
  | lead, body => ⟨lead ++ body⟩

/-- The path without its last component. The root and the empty path have none. -/
def parent? (p : Path) : Option Path :=
  match p.backwards with
  | _ :: before => some (assemble p.lead (before.dropWhile isTrivial).reverse)
  | [] => if p.lead = ["."] then some empty else none

/-- The path `q` as seen from `p`. -/
def join (p q : Path) : Path :=
  if q.isAbsolute then q
  else if p.segments.getLast? = some "" then ⟨p.segments.dropLast ++ q.segments⟩
  else ⟨p.segments ++ q.segments⟩

/-- The path and the paths above it, at most `n` of them. -/
def ancestorsUpTo (n : Nat) (p : Path) : List Path :=
  match n with
  | 0 => []
  | n + 1 =>
    p :: match p.parent? with
      | none => []
      | some q => ancestorsUpTo n q

/-- The path and all paths above it, from the innermost outwards. -/
def ancestors (p : Path) : List Path := ancestorsUpTo (p.segments.length + 1) p

/-- The directory a file stands in. -/
def directory (p : Path) : Path :=
  match p.parent? with
  | some q => if q.isEmpty then ofText "." else q
  | none => ofText "."

end Path

end Dam
