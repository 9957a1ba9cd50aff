import Dam.Code.Assembly
import Dam.Frame

/-!
# The state of code generation

One pass over a program infers types and emits code at the same time. There is no
checker in front of it: a program is refused at the node where its code cannot be
given, and what was emitted before that node stays.

`Gen` is the monad of the pass. It keeps its state when it fails.
-/

namespace Dam

/-- Why a program has no code. -/
inductive CodeFault where
  | undefinedVariable (name : String)
  | typeMismatch (op : BinaryOp) (left right : ValueType)
  | invalidOperand (op : UnaryOp) (operand : ValueType)
  | nonBooleanCondition (found : ValueType)
  | untypedNull
  | tooManyLocals
  | link (error : LinkError)
deriving DecidableEq, Repr

/-- The wording of a fault. -/
def CodeFault.message : CodeFault → String
  | .undefinedVariable x => "undefined variable '" ++ x ++ "'"
  | .typeMismatch op l r =>
    "type mismatch: cannot apply '" ++ op.symbol ++ "' to " ++ l.text ++ " and " ++ r.text
  | .invalidOperand op t => "invalid operand for '" ++ op.symbol ++ "': " ++ t.text
  | .nonBooleanCondition t => "condition must be bool, found " ++ t.text
  | .untypedNull => "'null' has no type"
  | .tooManyLocals =>
    "too many variables: the frame is limited to " ++ toString Frame.limit ++ " locals"
  | .link e => "invalid instruction stream: " ++ e.message

/-- A fault and the line of the node at fault. A fault of the code as a whole has none. -/
structure CodeError where
  fault : CodeFault
  line : Option Nat
deriving DecidableEq, Repr

/-- The fault with its line. -/
def CodeError.message (e : CodeError) : String :=
  match e.line with
  | some n => "codegen error at line " ++ toString n ++ ": " ++ e.fault.message
  | none => "codegen error: " ++ e.fault.message

/--
What the pass has made so far: the code (backwards), the variables, the types of
the nodes it has been through, the labels that conditions jump to when they are
false, and the number of the next group of labels.
-/
structure Generator where
  code : List Item
  frame : Frame
  types : Std.TreeMap Nat ValueType
  targets : Std.TreeMap Nat Label
  nextGroup : Nat
deriving Inhabited

/-- A step of the pass. -/
abbrev Gen := ExceptT CodeError (StateM Generator)

namespace Generator

/-- The state before the first statement. -/
def empty : Generator := ⟨[], .empty, ∅, ∅, 0⟩

/-- The code in order. -/
def items (g : Generator) : List Item := g.code.reverse

end Generator

namespace Gen

/-- Refuses the program. -/
def refuse {α : Type} (line : Nat) (fault : CodeFault) : Gen α := throw ⟨fault, some line⟩

/-- Appends an instruction. -/
def emit (i : Instr) : Gen Unit := modify fun g => { g with code := .op i :: g.code }

/-- Appends a label. -/
def place (l : Label) : Gen Unit := modify fun g => { g with code := .label l :: g.code }

/--
Remembers the type of a node. A node that is typed again keeps the last type; that the two are
the same is an assertion of debug builds, which is left out here.
-/
def record (id : Nat) (type : ValueType) : Gen Unit :=
  modify fun g => { g with types := g.types.insert id type }

/-- Remembers where a condition jumps to when it is false. -/
def register (id : Nat) (target : Label) : Gen Unit :=
  modify fun g => { g with targets := g.targets.insert id target }

/-- A fresh number for a group of labels. -/
def newGroup : Gen Nat := modifyGet fun g => (g.nextGroup, { g with nextGroup := g.nextGroup + 1 })

/-- Works on the frame. -/
def onFrame {α : Type} (f : Frame → α × Frame) : Gen α :=
  modifyGet fun g =>
    let (a, frame) := f g.frame
    (a, { g with frame := frame })

/-- The result of a step that has one, or a refusal. -/
def orRefuse {α : Type} (line : Nat) (fault : CodeFault) : Option α → Gen α
  | some a => pure a
  | none => refuse line fault

end Gen

end Dam
