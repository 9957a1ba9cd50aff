import Dam.Proofs.ControlFlow
import Dam.Proofs.Semantics
import Mathlib.Logic.Relation

/-!
# The target machine

A machine that runs code: an operand stack, local variables, what was printed and the
input lines that were not read. Numbers are computed with as in the meaning of programs,
so the same `Arithmetic` is a parameter here.

The machine is strict. An instruction that does not find the operands it works on, a
load from a slot that holds something else, a jump to a label that is not there and a
reader without lines have no next state.
-/

namespace Dam

variable {F : Type}

/-! ## Cells -/

/-- A word on the operand stack or in a local variable. -/
inductive Cell (F : Type) where
  | float (x : F)
  | string (s : String)
  | int (n : Int)
  | printStream
  | inputStream
  | rawScanner
  | scanner
deriving DecidableEq, Repr

/-- How the machine holds a value: a boolean is the integer `0` or `1`. -/
def Value.cell : Value F → Cell F
  | number x => .float x
  | string s => .string s
  | bool b => .int (if b then 1 else 0)

namespace Cell

/-- Whether a cell can be loaded and stored as a value of a type. -/
def fits : Cell F → ValueType → Bool
  | float _, .numeric | string _, .string | int _, .bool => true
  | _, _ => false

/-- The value of a type that a cell holds. -/
def value? : Cell F → ValueType → Option (Value F)
  | float x, .numeric => some (.number x)
  | string s, .string => some (.string s)
  | int n, .bool => if n = 0 then some (.bool false) else if n = 1 then some (.bool true) else none
  | _, _ => none

/-- The constructor of the scanner initialises every copy of the reference. -/
def initialised : Cell F → Cell F
  | rawScanner => scanner
  | c => c

end Cell

@[simp] theorem Value.fits_cell (v : Value F) : v.cell.fits v.type = true := by
  cases v <;> rfl

/-! ## Instructions -/

/-- Whether a comparison holds of two integers. -/
def Comparison.ints : Comparison → Int → Int → Bool
  | .eq, a, b => a = b
  | .ne, a, b => a ≠ b
  | .lt, a, b => a < b
  | .ge, a, b => b ≤ a
  | .gt, a, b => b < a
  | .le, a, b => a ≤ b

/-- The integer for an order; the first argument is that for unordered numbers. -/
def orderInt (unordered : Int) : Option Ordering → Int
  | some .lt => -1
  | some .eq => 0
  | some .gt => 1
  | none => unordered

/-- The first difference of two texts of UTF-16 units, or else that of their lengths. -/
def unitsDifference : List Nat → List Nat → Int
  | [], ys => -ys.length
  | xs, [] => xs.length
  | x :: xs, y :: ys => if x = y then unitsDifference xs ys else x - y

/-- Exclusive or of two 32-bit integers. -/
def xorInts (a b : Int) : Int := (BitVec.ofInt 32 a ^^^ BitVec.ofInt 32 b).toInt

/-- The state of the machine. -/
structure Machine (F : Type) where
  pc : Nat
  stack : List (Cell F)
  locals : Nat → Option (Cell F)
  output : List (Value F)
  lines : List String

/-- Calls a method: it takes its receiver and arguments off the stack. -/
def Method.call (f : Method) (m : Machine F) : Option (Machine F) :=
  if f = Gen.concat then
    match m.stack with
    | .string t :: .string s :: σ => some { m with stack := .string (s ++ t) :: σ }
    | _ => none
  else if f = Gen.compareTo then
    match m.stack with
    | .string t :: .string s :: σ =>
      some { m with stack := .int (unitsDifference (utf16Units s) (utf16Units t)) :: σ }
    | _ => none
  else if f = Gen.nextLine then
    match m.stack, m.lines with
    | .scanner :: σ, line :: rest => some { m with stack := .string line :: σ, lines := rest }
    | _, _ => none
  else do
    let τ ← ValueType.all.find? fun τ => f = Gen.println τ
    match m.stack with
    | c :: .printStream :: σ =>
      let v ← c.value? τ
      return { m with stack := σ, output := m.output ++ [v] }
    | _ => none

namespace Instr

/-- What an instruction does, apart from choosing the next one. -/
def run (A : Arithmetic F) (i : Instr) (m : Machine F) : Option (Machine F) :=
  match i, m.stack with
  | ldcFloat x, σ => some { m with stack := .float (A.constant x) :: σ }
  | ldcString s, σ => some { m with stack := .string s :: σ }
  | iconst n, σ => some { m with stack := .int n :: σ }
  | load τ k, σ => do
    let c ← m.locals k
    if c.fits τ then some { m with stack := c :: σ } else none
  | store τ k, c :: σ =>
    if c.fits τ then some { m with stack := σ, locals := Function.update m.locals k (some c) }
    else none
  | loadRef k, σ =>
    match m.locals k with
    | some .scanner => some { m with stack := .scanner :: σ }
    | _ => none
  | storeRef k, .scanner :: σ =>
    some { m with stack := σ, locals := Function.update m.locals k (some .scanner) }
  | arith op, .float y :: .float x :: σ => some { m with stack := .float (A.apply op x y) :: σ }
  | fneg, .float x :: σ => some { m with stack := .float (A.negate x) :: σ }
  | ixor, .int b :: .int a :: σ => some { m with stack := .int (xorInts a b) :: σ }
  | fcmpl, .float y :: .float x :: σ =>
    some { m with stack := .int (orderInt (-1) (A.order x y)) :: σ }
  | fcmpg, .float y :: .float x :: σ =>
    some { m with stack := .int (orderInt 1 (A.order x y)) :: σ }
  | ifZero _ _, .int _ :: σ => some { m with stack := σ }
  | ifInts _ _, .int _ :: .int _ :: σ => some { m with stack := σ }
  | goto _, σ => some { m with stack := σ }
  | dup, c :: σ => some { m with stack := c :: c :: σ }
  | pop, _ :: σ => some { m with stack := σ }
  | new name, σ =>
    if name = Gen.scannerClass then some { m with stack := .rawScanner :: σ } else none
  | getStatic f d, σ =>
    if getStatic f d = Gen.systemOut then some { m with stack := .printStream :: σ }
    else if getStatic f d = Gen.systemIn then some { m with stack := .inputStream :: σ }
    else none
  | invokeVirtual f, _ => f.call m
  | invokeSpecial f, .inputStream :: .rawScanner :: σ =>
    if f = Gen.scannerInit then some { m with stack := σ.map Cell.initialised } else none
  | _, _ => none

/-- Whether an instruction jumps, with the stack in front of it. -/
def jumps : Instr → List (Cell F) → Bool
  | goto _, _ => true
  | ifZero k _, .int n :: _ => k.ints n 0
  | ifInts k _, .int b :: .int a :: _ => k.ints a b
  | _, _ => false

end Instr

/-! ## Runs -/

/-- Where a label stands. -/
def Code.position? (items : List Item) (l : Label) : Option Nat := items.findIdx? (· = .label l)

namespace Machine

/-- The next state, unless the machine is at the end or stuck. -/
def step (A : Arithmetic F) (items : List Item) (m : Machine F) : Option (Machine F) := do
  match ← items[m.pc]? with
  | .label _ => return { m with pc := m.pc + 1 }
  | .op i =>
    let m' ← i.run A m
    let next ← if i.jumps m.stack then i.target?.bind (Code.position? items) else some (m.pc + 1)
    return { m' with pc := next }

/-- The machine gets from one state to another. -/
def Steps (A : Arithmetic F) (items : List Item) : Machine F → Machine F → Prop :=
  Relation.ReflTransGen fun m m' => m.step A items = some m'

end Machine

/-- A label that is placed once stands where it is found. -/
theorem Code.position?_eq {items : List Item} (hnd : (labels items).Nodup) {l : Label} {j : Nat}
    (hj : items[j]? = some (.label l)) : position? items l = some j := by
  unfold position?
  induction items generalizing j with
  | nil => simp at hj
  | cons x items ih =>
      cases j with
      | zero =>
          cases hj
          simp [List.findIdx?_cons]
      | succ j =>
          -- the label is not the first item, or it would be placed twice
          have hmem : l ∈ labels items := mem_labels.mpr (List.mem_of_getElem? hj)
          have hx : x ≠ .label l := by
            rintro rfl
            rw [labels_label, List.nodup_cons] at hnd
            exact hnd.1 hmem
          have hnd' : (labels items).Nodup := by
            cases x with
            | label l' =>
                rw [labels_label, List.nodup_cons] at hnd
                exact hnd.2
            | op i => exact hnd
          rw [List.findIdx?_cons, ih hnd' hj]
          simp [hx]

namespace Machine

variable {A : Arithmetic F} {items : List Item} {i : Instr} {l : Label} {k j : Nat}
  {σ σ' : List (Cell F)} {L L' : Nat → Option (Cell F)} {out out' : List (Value F)}
  {lines lines' : List String}

theorem Steps.trans {m₁ m₂ m₃ : Machine F} (h : Steps A items m₁ m₂) (h' : Steps A items m₂ m₃) :
    Steps A items m₁ m₃ :=
  Relation.ReflTransGen.trans h h'

theorem steps_label (hi : items[k]? = some (.label l)) :
    Steps A items ⟨k, σ, L, out, lines⟩ ⟨k + 1, σ, L, out, lines⟩ := by
  refine .single ?_
  simp [step, hi]

/-- A label at the end of a run is passed. -/
theorem Steps.label {m : Machine F} (h : Steps A items m ⟨k, σ, L, out, lines⟩)
    (hi : items[k]? = some (.label l)) : Steps A items m ⟨k + 1, σ, L, out, lines⟩ :=
  h.trans (steps_label hi)

/-- An instruction that does not jump. -/
theorem steps_next (hi : items[k]? = some (.op i))
    (hrun : i.run A ⟨k, σ, L, out, lines⟩ = some ⟨k, σ', L', out', lines'⟩)
    (hjump : i.jumps σ = false) :
    Steps A items ⟨k, σ, L, out, lines⟩ ⟨k + 1, σ', L', out', lines'⟩ := by
  refine .single ?_
  simp [step, hi, hrun, hjump]

/-- An instruction that jumps to a label that is placed once. -/
theorem steps_jump (hnd : (Code.labels items).Nodup) (hi : items[k]? = some (.op i))
    (hrun : i.run A ⟨k, σ, L, out, lines⟩ = some ⟨k, σ', L', out', lines'⟩)
    (hjump : i.jumps σ = true) (hl : i.target? = some l) (hj : items[j]? = some (.label l)) :
    Steps A items ⟨k, σ, L, out, lines⟩ ⟨j, σ', L', out', lines'⟩ := by
  refine .single ?_
  simp [step, hi, hrun, hjump, hl, Code.position?_eq hnd hj]

end Machine

end Dam
