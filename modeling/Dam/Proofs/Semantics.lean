import Dam.Code.Constant
import Dam.Program
import Dam.ValueType

/-!
# What a program means

A program computes with numbers, strings and booleans in one flat store of variables. Its
meaning does not know of code or of inferred types: an operator that does not fit the
values it meets has no result.

How numbers are computed with is left open, as an `Arithmetic`; all that is used of it
is that two numbers compare as less, equal or greater, or not at all. Strings are ordered
by their UTF-16 units, and `false` is below `true`.
-/

namespace Dam

/-! ## Values -/

/-- How numbers are computed with. Two numbers that do not compare are unordered. -/
structure Arithmetic (F : Type) where
  constant : Binary64 → F
  apply : ArithOp → F → F → F
  negate : F → F
  order : F → F → Option Ordering

/-- A value of a program. -/
inductive Value (F : Type) where
  | number (x : F)
  | string (s : String)
  | bool (b : Bool)
deriving DecidableEq, Repr

variable {F : Type}

/-- The type of a value. -/
def Value.type : Value F → ValueType
  | number _ => .numeric
  | string _ => .string
  | bool _ => .bool

theorem Value.eq_bool_of_type {v : Value F} (h : v.type = .bool) : ∃ b, v = .bool b := by
  cases v with
  | number x => cases h
  | string s => cases h
  | bool b => exact ⟨b, rfl⟩

/-- The truth of a boolean. -/
def Value.truth? : Value F → Option Bool
  | bool b => some b
  | _ => none

theorem Value.truth?_eq_some {v : Value F} {b : Bool} (h : v.truth? = some b) : v = .bool b := by
  cases v with
  | number x => cases h
  | string s => cases h
  | bool c => cases h; rfl

/-- Whether the left operand of a logical operator is already its value. -/
def LogicalOp.decided : LogicalOp → Bool → Bool
  | .and, b => !b
  | .or, b => b

/-- Whether a comparison holds of two values in an order. Unordered values are only different. -/
def Comparison.holds : Comparison → Option Ordering → Bool
  | .eq, o => o == some .eq
  | .ne, o => o != some .eq
  | .lt, o => o == some .lt
  | .ge, o => o == some .gt || o == some .eq
  | .gt, o => o == some .gt
  | .le, o => o == some .lt || o == some .eq

/-- The UTF-16 units of a string. -/
def utf16Units (s : String) : List Nat := s.toList.flatMap utf16

/-- The order of two strings: different ones are ordered by their units. -/
def stringOrder (s t : String) : Ordering :=
  if s = t then .eq
  else if compare (utf16Units s) (utf16Units t) = .lt then .lt
  else .gt

namespace Arithmetic

/-- The value of a constant; `null` has none. -/
def literal (A : Arithmetic F) : Literal → Option (Value F)
  | .number x => some (.number (A.constant x))
  | .string s => some (.string s)
  | .bool b => some (.bool b)
  | .null => none

/-- The value of a unary operator. -/
def unary (A : Arithmetic F) : UnaryOp → Value F → Option (Value F)
  | .not, .bool b => some (.bool !b)
  | .neg, .number x => some (.number (A.negate x))
  | _, _ => none

/-- The value of a binary operator. Both operands have to be of one type. -/
def binary (A : Arithmetic F) : BinaryOp → Value F → Value F → Option (Value F)
  | .arith op, .number x, .number y => some (.number (A.apply op x y))
  | .arith .add, .string s, .string t => some (.string (s ++ t))
  | .compare k, .number x, .number y => some (.bool (k.holds (A.order x y)))
  | .compare k, .string s, .string t => some (.bool (k.holds (some (stringOrder s t))))
  | .compare k, .bool b, .bool c => some (.bool (k.holds (some (compare b c))))
  | _, _, _ => none

end Arithmetic

/-! ## Expressions -/

/--
The variables that have a value, and the types of the values found by the variable nodes
that were evaluated, in this order.
-/
structure Memory (F : Type) where
  store : String → Option (Value F)
  found : List (Nat × ValueType)

/-- The memory after a value was stored. -/
def Memory.set (m : Memory F) (x : String) (v : Value F) : Memory F :=
  { m with store := fun y => if y = x then some v else m.store y }

/--
The value of an expression. Operands are evaluated from left to right, the right operand of
a logical operator only if the left one does not decide, and an assignment is its value.
-/
def Expr.eval (A : Arithmetic F) : Expr → Memory F → Option (Value F × Memory F)
  | literal _ v, m => (A.literal v).map (·, m)
  | var n x, m => (m.store x).map fun v => (v, { m with found := m.found ++ [(n.id, v.type)] })
  | unary _ op a, m => do
    let (v, m) ← a.eval A m
    let w ← A.unary op v
    return (w, m)
  | binary _ l op r, m => do
    let (v, m) ← l.eval A m
    let (w, m) ← r.eval A m
    let u ← A.binary op v w
    return (u, m)
  | logical _ l op r, m => do
    let (v, m) ← l.eval A m
    let b ← v.truth?
    if op.decided b then return (.bool b, m)
    let (w, m) ← r.eval A m
    let c ← w.truth?
    return (.bool c, m)
  | grouping _ a, m => a.eval A m
  | assign _ x a, m => do
    let (v, m) ← a.eval A m
    return (v, m.set x v)

namespace Expr

variable {A : Arithmetic F} {m m' : Memory F} {v : Value F}

theorem eval_literal {n : Node} {c : Literal} (h : (literal n c).eval A m = some (v, m')) :
    A.literal c = some v ∧ m' = m := by
  simp only [eval, Option.map_eq_some_iff, Prod.mk.injEq] at h
  obtain ⟨_, h, rfl, rfl⟩ := h
  exact ⟨h, rfl⟩

theorem eval_var {n : Node} {x : String} (h : (var n x).eval A m = some (v, m')) :
    m.store x = some v ∧ m' = { m with found := m.found ++ [(n.id, v.type)] } := by
  simp only [eval, Option.map_eq_some_iff, Prod.mk.injEq] at h
  obtain ⟨_, h, rfl, rfl⟩ := h
  exact ⟨h, rfl⟩

theorem eval_unary {n : Node} {op : UnaryOp} {a : Expr}
    (h : (unary n op a).eval A m = some (v, m')) :
    ∃ w, a.eval A m = some (w, m') ∧ A.unary op w = some v := by
  simp only [eval, Option.bind_eq_bind, Option.bind_eq_some_iff, Option.pure_def,
    Option.some.injEq, Prod.mk.injEq] at h
  obtain ⟨⟨w, m₁⟩, ha, _, hw, rfl, rfl⟩ := h
  exact ⟨w, ha, hw⟩

theorem eval_binary {n : Node} {op : BinaryOp} {l r : Expr}
    (h : (binary n l op r).eval A m = some (v, m')) :
    ∃ w m₁ u, l.eval A m = some (w, m₁) ∧ r.eval A m₁ = some (u, m') ∧
      A.binary op w u = some v := by
  simp only [eval, Option.bind_eq_bind, Option.bind_eq_some_iff, Option.pure_def,
    Option.some.injEq, Prod.mk.injEq] at h
  obtain ⟨⟨w, m₁⟩, hl, ⟨u, m₂⟩, hr, _, hu, rfl, rfl⟩ := h
  exact ⟨w, m₁, u, hl, hr, hu⟩

theorem eval_assign {n : Node} {x : String} {a : Expr}
    (h : (assign n x a).eval A m = some (v, m')) :
    ∃ m₁, a.eval A m = some (v, m₁) ∧ m' = m₁.set x v := by
  simp only [eval, Option.bind_eq_bind, Option.bind_eq_some_iff, Option.pure_def,
    Option.some.injEq, Prod.mk.injEq] at h
  obtain ⟨⟨w, m₁⟩, ha, rfl, rfl⟩ := h
  exact ⟨m₁, ha, rfl⟩

/-- A logical operator is decided by its left operand, or has the value of its right one. -/
theorem eval_logical {n : Node} {op : LogicalOp} {l r : Expr}
    (h : (logical n l op r).eval A m = some (v, m')) :
    ∃ b m₁, l.eval A m = some (.bool b, m₁) ∧
      ((op.decided b = true ∧ v = .bool b ∧ m' = m₁) ∨
        (op.decided b = false ∧ ∃ c, r.eval A m₁ = some (.bool c, m') ∧ v = .bool c)) := by
  simp only [eval, Option.bind_eq_bind, Option.bind_eq_some_iff] at h
  obtain ⟨⟨w, m₁⟩, hl, b, hb, h⟩ := h
  have hw : w = .bool b := Value.truth?_eq_some hb
  subst hw
  refine ⟨b, m₁, hl, ?_⟩
  split at h
  · rename_i hdec
    cases h
    exact .inl ⟨hdec, rfl, rfl⟩
  · rename_i hdec
    simp only [Option.bind_eq_some_iff, Option.pure_def, Option.some.injEq, Prod.mk.injEq] at h
    obtain ⟨⟨u, m₂⟩, hr, c, hc, rfl, rfl⟩ := h
    have hu : u = .bool c := Value.truth?_eq_some hc
    subst hu
    exact .inr ⟨Bool.eq_false_iff.mpr hdec, c, hr, rfl⟩

/-- Evaluation only adds to what was found. -/
theorem found_eval {e : Expr} (h : e.eval A m = some (v, m')) : m.found <+: m'.found := by
  induction e generalizing m m' v with
  | literal n c =>
      obtain ⟨_, rfl⟩ := eval_literal h
      exact List.prefix_rfl
  | var n x =>
      obtain ⟨_, rfl⟩ := eval_var h
      exact List.prefix_append _ _
  | unary n op a ih =>
      obtain ⟨w, ha, _⟩ := eval_unary h
      exact ih ha
  | binary n l op r ih₁ ih₂ =>
      obtain ⟨w, m₁, u, hl, hr, _⟩ := eval_binary h
      exact (ih₁ hl).trans (ih₂ hr)
  | logical n l op r ih₁ ih₂ =>
      obtain ⟨b, m₁, hl, ⟨_, _, rfl⟩ | ⟨_, c, hr, _⟩⟩ := eval_logical h
      · exact ih₁ hl
      · exact (ih₁ hl).trans (ih₂ hr)
  | grouping n a ih => exact ih h
  | assign n x a ih =>
      obtain ⟨m₁, ha, rfl⟩ := eval_assign h
      have hfound : m.found <+: m₁.found := ih ha
      exact hfound

end Expr

/-! ## Statements -/

/-- The memory of a running program, what it has printed, and the input lines it has not read. -/
structure Run (F : Type) where
  memory : Memory F
  output : List (Value F)
  lines : List String

/-- In front of the first statement no variable has a value. -/
def Run.start (lines : List String) : Run F := ⟨⟨fun _ => none, []⟩, [], lines⟩

/-- `Exec A st r r'`: the statement `st`, started in `r`, ends in `r'`. -/
inductive Exec (A : Arithmetic F) : Stmt → Run F → Run F → Prop
  | declare {sp : Span} {x : String} {e : Expr} {r : Run F} {v : Value F} {m : Memory F} :
      e.eval A r.memory = some (v, m) →
      Exec A (.declare sp x e) r { r with memory := m.set x v }
  | print {sp : Span} {e : Expr} {r : Run F} {v : Value F} {m : Memory F} :
      e.eval A r.memory = some (v, m) →
      Exec A (.print sp e) r { r with memory := m, output := r.output ++ [v] }
  | read {sp : Span} {x : String} {r : Run F} {line : String} {rest : List String} :
      r.lines = line :: rest →
      Exec A (.read sp x) r { r with memory := r.memory.set x (.string line), lines := rest }
  | ifThen {sp : Span} {e : Expr} {yes : Stmt} {r r' : Run F} {m : Memory F} :
      e.eval A r.memory = some (.bool true, m) → Exec A yes { r with memory := m } r' →
      Exec A (.ifThen sp e yes) r r'
  | ifSkip {sp : Span} {e : Expr} {yes : Stmt} {r : Run F} {m : Memory F} :
      e.eval A r.memory = some (.bool false, m) →
      Exec A (.ifThen sp e yes) r { r with memory := m }
  | ifYes {sp : Span} {e : Expr} {yes no : Stmt} {r r' : Run F} {m : Memory F} :
      e.eval A r.memory = some (.bool true, m) → Exec A yes { r with memory := m } r' →
      Exec A (.ifElse sp e yes no) r r'
  | ifNo {sp : Span} {e : Expr} {yes no : Stmt} {r r' : Run F} {m : Memory F} :
      e.eval A r.memory = some (.bool false, m) → Exec A no { r with memory := m } r' →
      Exec A (.ifElse sp e yes no) r r'
  | whileAgain {sp : Span} {e : Expr} {body : Stmt} {r r' r'' : Run F} {m : Memory F} :
      e.eval A r.memory = some (.bool true, m) → Exec A body { r with memory := m } r' →
      Exec A (.whileDo sp e body) r' r'' → Exec A (.whileDo sp e body) r r''
  | whileDone {sp : Span} {e : Expr} {body : Stmt} {r : Run F} {m : Memory F} :
      e.eval A r.memory = some (.bool false, m) →
      Exec A (.whileDo sp e body) r { r with memory := m }
  | nil {sp : Span} {r : Run F} : Exec A (.block sp []) r r
  | cons {sp : Span} {st : Stmt} {sts : List Stmt} {r r' r'' : Run F} :
      Exec A st r r' → Exec A (.block sp sts) r' r'' → Exec A (.block sp (st :: sts)) r r''
  | expression {sp : Span} {e : Expr} {r : Run F} {v : Value F} {m : Memory F} :
      e.eval A r.memory = some (v, m) →
      Exec A (.expression sp e) r { r with memory := m }

theorem Exec.found {A : Arithmetic F} {st : Stmt} {r r' : Run F} (h : Exec A st r r') :
    r.memory.found <+: r'.memory.found := by
  induction h with
  | @declare sp x e r v m he =>
      have hfound : r.memory.found <+: m.found := Expr.found_eval he
      exact hfound
  | print he => exact Expr.found_eval he
  | read _ => exact List.prefix_rfl
  | ifThen he _ ih => exact (Expr.found_eval he).trans ih
  | ifSkip he => exact Expr.found_eval he
  | ifYes he _ ih => exact (Expr.found_eval he).trans ih
  | ifNo he _ ih => exact (Expr.found_eval he).trans ih
  | whileAgain he _ _ ih₁ ih₂ => exact ((Expr.found_eval he).trans ih₁).trans ih₂
  | whileDone he => exact Expr.found_eval he
  | nil => exact List.prefix_rfl
  | cons _ _ ih₁ ih₂ => exact ih₁.trans ih₂
  | expression he => exact Expr.found_eval he

/-- A program started with input lines ends in `r`. -/
def Program.Runs (A : Arithmetic F) (p : Program) (lines : List String) (r : Run F) : Prop :=
  Exec A (.block p.span p.stmts) (.start lines) r

end Dam
