import Dam.Code.Instr
import Std.Data.TreeMap
import Std.Data.TreeSet

/-!
# Finished code

Code can be handed to the assembler when its labels link and the depth of its
operand stack is known. `checkLabels` looks at the labels alone: each is placed once,
and every jump has a place to go. `maxDepth` walks over the items once, from the
first to the last, and keeps the depth of the operand stack; all ways into a label
have to agree on it. Depths are natural numbers, and the sums that are compared with
zero are integers. Signed words of 32 bits hold them if the code has fewer than `2 ^ 31`
items and calls no method with a descriptor of `2 ^ 30` characters.
-/

namespace Dam

/-- Why code cannot be finished. -/
inductive LinkError where
  | undefined (label : Label)
  | duplicate (label : Label)
  | underflow (index : Nat) (instr : Instr)
  | inconsistentDepth (label : Label) (first second : Nat)
  | tooDeep (depth : Nat)
deriving DecidableEq, Repr

/-- The wording of a link error. -/
def LinkError.message : LinkError → String
  | .undefined l => "label '" ++ l.name ++ "' is referenced but never defined"
  | .duplicate l => "label '" ++ l.name ++ "' is defined more than once"
  | .underflow index i =>
    "operand stack underflow at instruction " ++ toString index ++ " (" ++ i.text ++ ")"
  | .inconsistentDepth l first second =>
    "label '" ++ l.name ++ "' is reached with stack depths " ++ toString first ++ " and "
      ++ toString second
  | .tooDeep depth => "operand stack depth " ++ toString depth ++ " exceeds the JVM limit"

namespace Code

/-! ## Labels -/

/-- The labels placed in the code. -/
def labels (items : List Item) : List Label := items.filterMap Item.label?

/-- The instructions of the code. -/
def instrs (items : List Item) : List Instr := items.filterMap Item.instr?

/-- The labels that instructions jump to. -/
def targets (items : List Item) : List Label := (instrs items).filterMap Instr.target?

/-- The first name that was seen before. -/
def firstRepeated? (seen : Std.TreeSet String) : List Label → Option Label
  | [] => none
  | l :: ls => if seen.contains l.name then some l else firstRepeated? (seen.insert l.name) ls

/-- Every label is placed at most once, and every target is placed. -/
def checkLabels (items : List Item) : Except LinkError Unit :=
  match firstRepeated? ∅ (labels items) with
  | some l => .error (.duplicate l)
  | none =>
    let placed := Std.TreeSet.ofList ((labels items).map Label.name)
    match (targets items).find? fun l => !placed.contains l.name with
    | some l => .error (.undefined l)
    | none => .ok ()

/-! ## Depth of the operand stack -/

/-- The largest depth a method can have. -/
def depthLimit : Nat := 65535

/--
The state of the walk: the index of the next item, the depth in front of it unless
nothing falls through to it, the depths that labels are entered with, and the
largest depth so far.
-/
structure Walk where
  index : Nat
  depth : Option Nat
  entry : Std.TreeMap String Nat
  deepest : Nat

namespace Walk

/-- The walk in front of the first item. -/
def start : Walk := ⟨0, some 0, ∅, 0⟩

/-- Notes the depth that a label is entered with; it has to be the one noted before. -/
def enter (w : Walk) (l : Label) (depth : Nat) : Except LinkError Walk :=
  match w.entry[l.name]? with
  | some noted =>
    if noted = depth then .ok w else .error (.inconsistentDepth l noted depth)
  | none => .ok { w with entry := w.entry.insert l.name depth }

/-- Passes a label. If nothing falls through to it, the depth is that of the jumps to it. -/
def passLabel (w : Walk) (l : Label) : Except LinkError Walk :=
  match w.depth with
  | some depth => w.enter l depth
  | none => .ok { w with depth := w.entry[l.name]? }

/-- Passes an instruction. What cannot be reached starts with an empty stack. -/
def passInstr (w : Walk) (i : Instr) : Except LinkError Walk :=
  let after := (w.depth.getD 0 : Int) + i.effect
  if after < 0 then .error (.underflow w.index i)
  else
    let depth := after.toNat
    let w := { w with
      depth := if i.endsFlow then none else some depth
      deepest := max w.deepest depth }
    match i.target? with
    | none => .ok w
    | some l => w.enter l depth

/-- Passes an item. -/
def step (w : Walk) (item : Item) : Except LinkError Walk :=
  let passed :=
    match item with
    | .label l => w.passLabel l
    | .op i => w.passInstr i
  passed.map fun w => { w with index := w.index + 1 }

end Walk

/-- The walk over all items. -/
def walk (items : List Item) : Except LinkError Walk := items.foldlM Walk.step .start

/-- The largest depth of the operand stack. -/
def maxDepth (items : List Item) : Except LinkError Nat := do
  let w ← walk items
  if depthLimit < w.deepest then .error (.tooDeep w.deepest) else .ok w.deepest

end Code

/-- Code that links, with the sizes of its frame. -/
structure Assembly where
  items : List Item
  maxStack : Nat
  maxLocals : Nat
deriving DecidableEq, Repr, Inhabited

/-- Checks code and sizes its frame. -/
def Assembly.ofItems (items : List Item) (locals : Nat) : Except LinkError Assembly := do
  Code.checkLabels items
  let depth ← Code.maxDepth items
  .ok ⟨items, depth, locals⟩

end Dam
