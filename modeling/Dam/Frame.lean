import Dam.ValueType
import Std.Data.TreeMap

/-!
# The frame of local variables

The variables of a program, each with a slot of the method's frame. There is one
flat scope: a block opens none, and declaring a variable again keeps its slot and
changes its type. The type of a variable is that of the value stored last, in the
order of the program text.

Slot `0` holds the arguments of the program and belongs to no variable. Slots are
given out in order, to variables when they are declared and to the scanner, which
reads input lines, when it is first needed. An operation that fails leaves the
frame as it was.
-/

namespace Dam

/-- A declared variable. -/
structure Variable where
  type : ValueType
  slot : Nat
deriving DecidableEq, Repr, Inhabited

/--
The variables by name, their names in the order of declaration (backwards), the
number of slots given out, and the scanner's slot.
-/
structure Frame where
  table : Std.TreeMap String Variable
  declared : List String
  allocated : Nat
  scanner : Option Nat

namespace Frame

/-- Slots that no variable can have. -/
def reserved : Nat := 1

/-- The most slots a method can have. -/
def limit : Nat := 65535

/-- The frame without variables. -/
def empty : Frame := ⟨∅, [], 0, none⟩

instance : Inhabited Frame := ⟨empty⟩

/-- The next slot to be given out. The frame is full when it would have to be the last one. -/
def nextSlot? (f : Frame) : Option Nat :=
  let slot := reserved + f.allocated
  if slot = limit then none else some slot

/-- The number of slots the method needs. -/
def locals (f : Frame) : Nat := reserved + f.allocated

/-- The number of variables. -/
def size (f : Frame) : Nat := f.declared.length

/-- The type of a variable. -/
def type? (f : Frame) (name : String) : Option ValueType := f.table[name]?.map Variable.type

/-- The slot of a variable. -/
def slot? (f : Frame) (name : String) : Option Nat := f.table[name]?.map Variable.slot

/-- Gives a declared variable a new type. The result is its slot. -/
def assign (f : Frame) (name : String) (type : ValueType) : Option Nat × Frame :=
  match f.table[name]? with
  | none => (none, f)
  | some v => (some v.slot, { f with table := f.table.insert name ⟨type, v.slot⟩ })

/-- Declares a variable, or gives it a new type. The result is its slot, if there is one left. -/
def define (f : Frame) (name : String) (type : ValueType) : Option Nat × Frame :=
  match f.table[name]? with
  | some v => (some v.slot, { f with table := f.table.insert name ⟨type, v.slot⟩ })
  | none =>
    match f.nextSlot? with
    | none => (none, f)
    | some slot =>
      (some slot, { f with
        table := f.table.insert name ⟨type, slot⟩
        declared := name :: f.declared
        allocated := f.allocated + 1 })

/-- The slot of the scanner, which gets one now if it has none. -/
def useScanner (f : Frame) : Option Nat × Frame :=
  match f.scanner with
  | some slot => (some slot, f)
  | none =>
    match f.nextSlot? with
    | none => (none, f)
    | some slot => (some slot, { f with allocated := f.allocated + 1, scanner := some slot })

/-- The variables in the order of declaration. -/
def toList (f : Frame) : List (String × Variable) :=
  f.declared.reverse.filterMap fun name => f.table[name]?.map fun v => (name, v)

end Frame

end Dam
