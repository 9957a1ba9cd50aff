import Dam.Generator.Stmt

/-!
# What the pass emits

The pass is a state monad with failure, and reasoning about it line by line would
mean going through its plumbing once for every property. This file goes through
it once. `ExprCode` and `StmtCode` say which code a successful pass appends for
a phrase, which types it remembers and how it leaves the frame and the label
counter, and `generate_emits` says that every successful pass is described by
them. All later statements about generated code are inductions over these two
relations.

The code emitted so far is never looked at, so the relations speak about a
`Scope`, which is the part of the state that is.
-/

namespace Dam

/-! ## Successful steps -/

/-- Of two steps, the second is taken if the first succeeds. -/
theorem run_bind {ε σ α β : Type} (m : ExceptT ε (StateM σ) α) (f : α → ExceptT ε (StateM σ) β)
    (s : σ) :
    (m >>= f).run s = match m.run s with
      | (.ok a, s') => (f a).run s'
      | (.error e, s') => (.error e, s') := by
  simp only [ExceptT.run, bind, ExceptT.bind, ExceptT.mk, StateT.bind]
  rcases m s with ⟨a | a, s'⟩ <;> rfl

namespace Gen

/-- The step `m` succeeds on `g` with `a` and leaves `g'`. -/
def Yields {α : Type} (m : Gen α) (g : Generator) (a : α) (g' : Generator) : Prop :=
  m.run g = (.ok a, g')

@[simp] theorem yields_pure {α : Type} {a b : α} {g g' : Generator} :
    Yields (pure a) g b g' ↔ b = a ∧ g' = g := by
  constructor
  · intro h; cases h; exact ⟨rfl, rfl⟩
  · rintro ⟨rfl, rfl⟩; rfl

@[simp] theorem yields_bind {α β : Type} {m : Gen α} {f : α → Gen β} {g g'' : Generator} {b : β} :
    Yields (m >>= f) g b g'' ↔ ∃ a g', Yields m g a g' ∧ Yields (f a) g' b g'' := by
  unfold Yields
  rw [run_bind]
  rcases m.run g with ⟨e | a, g'⟩
  · constructor
    · intro h; cases h
    · rintro ⟨_, _, h, _⟩; cases h
  · constructor
    · intro h; exact ⟨a, g', rfl, h⟩
    · rintro ⟨_, _, h, h'⟩; cases h; exact h'

@[simp] theorem not_yields_refuse {α : Type} {line : Nat} {fault : CodeFault} {g g' : Generator}
    {a : α} : ¬ Yields (refuse line fault) g a g' := by
  intro h; cases h

@[simp] theorem yields_orRefuse {α : Type} {line : Nat} {fault : CodeFault} {g g' : Generator}
    {a : α} {o : Option α} : Yields (orRefuse line fault o) g a g' ↔ o = some a ∧ g' = g := by
  cases o with
  | none => simp [orRefuse]
  | some b => simp [orRefuse, eq_comm]

@[simp] theorem yields_onFrame {α : Type} {f : Frame → α × Frame} {g g' : Generator} {a : α} :
    Yields (onFrame f) g a g' ↔ a = (f g.frame).1 ∧ g' = { g with frame := (f g.frame).2 } := by
  constructor
  · intro h; cases h; exact ⟨rfl, rfl⟩
  · rintro ⟨rfl, rfl⟩; rfl

@[simp] theorem yields_newGroup {g g' : Generator} {n : Nat} :
    Yields newGroup g n g' ↔ n = g.nextGroup ∧ g' = { g with nextGroup := g.nextGroup + 1 } := by
  constructor
  · intro h; cases h; exact ⟨rfl, rfl⟩
  · rintro ⟨rfl, rfl⟩; rfl

end Gen

namespace Generator

/-- The state with one more item of code. -/
def push (g : Generator) (x : Item) : Generator := { g with code := x :: g.code }

/-- The state that remembers a type. -/
def note (g : Generator) (id : Nat) (type : ValueType) : Generator :=
  { g with types := g.types.insert id type }

/-- The state that remembers a branch target. -/
def aim (g : Generator) (id : Nat) (target : Label) : Generator :=
  { g with targets := g.targets.insert id target }

@[simp] theorem aim_nextGroup (g : Generator) (id : Nat) (target : Label) :
    (g.aim id target).nextGroup = g.nextGroup := rfl

end Generator

namespace Gen

variable {g g' : Generator} {u : Unit}

@[simp] theorem yields_emit {i : Instr} : Yields (emit i) g u g' ↔ g' = g.push (.op i) := by
  constructor
  · intro h; cases h; rfl
  · rintro rfl; rfl

@[simp] theorem yields_place {l : Label} : Yields (place l) g u g' ↔ g' = g.push (.label l) := by
  constructor
  · intro h; cases h; rfl
  · rintro rfl; rfl

@[simp] theorem yields_record {id : Nat} {τ : ValueType} :
    Yields (record id τ) g u g' ↔ g' = g.note id τ := by
  constructor
  · intro h; cases h; rfl
  · rintro rfl; rfl

@[simp] theorem yields_register {id : Nat} {l : Label} :
    Yields (register id l) g u g' ↔ g' = g.aim id l := by
  constructor
  · intro h; cases h; rfl
  · rintro rfl; rfl

/-- A node in value position remembers its type after its code. -/
theorem yields_typed {n : Node} {m : Gen ValueType} {τ : ValueType} :
    Yields (typed n m) g τ g' ↔ ∃ g₁, Yields m g τ g₁ ∧ g' = g₁.note n.id τ := by
  simp only [typed, yields_bind, yields_record, yields_pure]
  constructor
  · rintro ⟨_, g₁, h, _, _, rfl, rfl, rfl⟩; exact ⟨g₁, h, rfl⟩
  · rintro ⟨g₁, h, rfl⟩; exact ⟨τ, g₁, h, (), _, rfl, rfl, rfl⟩

/-- A node in condition position remembers its target before its code and its type after it. -/
theorem yields_routed {n : Node} {t : Label} {m : Gen Unit} :
    Yields (routed n t m) g u g' ↔
      ∃ g₁, Yields m (g.aim n.id t) () g₁ ∧ g' = g₁.note n.id .bool := by
  simp only [routed, yields_bind, yields_record, yields_register]
  constructor
  · rintro ⟨_, _, rfl, _, g₁, h, rfl⟩; exact ⟨g₁, h, rfl⟩
  · rintro ⟨g₁, h, rfl⟩; exact ⟨(), _, rfl, (), g₁, h, rfl⟩

end Gen

/-! ## The code of a phrase -/

/-- What the pass looks at: the variables, and the number of the next group of labels. -/
structure Scope where
  frame : Frame
  group : Nat

namespace Scope

/-- The scope before the first statement. -/
def empty : Scope := ⟨.empty, 0⟩

/-- The scope after a group of labels was taken. -/
def next (s : Scope) : Scope := { s with group := s.group + 1 }

@[simp] theorem next_frame (s : Scope) : s.next.frame = s.frame := rfl

end Scope

/-- The scope a state of the pass provides. -/
def Generator.scope (g : Generator) : Scope := ⟨g.frame, g.nextGroup⟩

/-- The position of an expression: its value is wanted, or a jump when it is false. -/
inductive ExprPosition where
  | value (type : ValueType)
  | test (target : Label)

/-- The type of an expression in a position. -/
def ExprPosition.type : ExprPosition → ValueType
  | value τ => τ
  | test _ => .bool

namespace Expr

/-- Expressions whose code is that of a condition in both positions. -/
def isCondition : Expr → Bool
  | binary _ _ (.compare _) _ | logical _ _ _ _ => true
  | _ => false

/-- Expressions whose code is that of a value in both positions. -/
def isPlain : Expr → Bool
  | binary _ _ (.compare _) _ | logical _ _ _ _ | grouping _ _ => false
  | _ => true

/-- Whether an expression is an assignment. -/
def isAssign : Expr → Bool
  | assign _ _ _ => true
  | _ => false

end Expr

/-- The instruction for a constant, and the constant's type. -/
def Literal.push? : Literal → Option (Instr × ValueType)
  | number x => some (.ldcFloat x, .numeric)
  | string s => some (.ldcString s, .string)
  | bool b => some (.iconst (if b then 1 else 0), .bool)
  | null => none

/-- Two values of a type that can be combined are numbers or strings. -/
theorem Gen.arithInstr?_cases {op : ArithOp} {τ : ValueType} {i : Instr}
    (h : Gen.arithInstr? op τ = some i) :
    (τ = .numeric ∧ i = .arith op) ∨ (τ = .string ∧ i = .invokeVirtual Gen.concat) := by
  cases τ with
  | numeric => cases h; exact .inl ⟨rfl, rfl⟩
  | string =>
      simp only [Gen.arithInstr?] at h
      split at h
      · cases h; exact .inr ⟨rfl, rfl⟩
      · cases h
  | bool => cases h

/-- The code that jumps unless the comparison of two values of a type holds. -/
def Comparison.branch (k : Comparison) (target : Label) : ValueType → List Item
  | .numeric => [.op (Gen.floatCompare k), .op (.ifZero k.negate target)]
  | .string => [.op (.invokeVirtual Gen.compareTo), .op (.ifZero k.negate target)]
  | .bool => [.op (.ifInts k.negate target)]

/-- The code that turns the two outcomes of a condition into a value. -/
def materializeCode (n : Nat) : List Item :=
  [.op (.iconst 1), .op (.goto (.numbered "BOOL_END" n)), .label (.numbered "FALSE" n),
    .op (.iconst 0), .label (.numbered "BOOL_END" n)]

/--
`ExprCode e pos s s' ts c`: in scope `s` and position `pos`, the pass gives the
expression `e` the code `c`, remembers the types `ts` in this order and goes on
in scope `s'`.
-/
inductive ExprCode : Expr → ExprPosition → Scope → Scope → List (Nat × ValueType) → List Item → Prop
  | literal {n : Node} {v : Literal} {i : Instr} {τ : ValueType} {s : Scope} :
      v.push? = some (i, τ) →
      ExprCode (.literal n v) (.value τ) s s [(n.id, τ)] [.op i]
  | var {n : Node} {x : String} {v : Variable} {s : Scope} :
      s.frame.table[x]? = some v →
      ExprCode (.var n x) (.value v.type) s s [(n.id, v.type)] [.op (.load v.type v.slot)]
  | not {n : Node} {a : Expr} {s s' : Scope} {ts : List (Nat × ValueType)} {c : List Item} :
      ExprCode a (.value .bool) s s' ts c →
      ExprCode (.unary n .not a) (.value .bool) s s' (ts ++ [(n.id, .bool)])
        (c ++ [.op (.iconst 1), .op .ixor])
  | neg {n : Node} {a : Expr} {s s' : Scope} {ts : List (Nat × ValueType)} {c : List Item} :
      ExprCode a (.value .numeric) s s' ts c →
      ExprCode (.unary n .neg a) (.value .numeric) s s' (ts ++ [(n.id, .numeric)])
        (c ++ [.op .fneg])
  | arith {n : Node} {l r : Expr} {op : ArithOp} {τ : ValueType} {i : Instr} {s s₁ s₂ : Scope}
      {ts₁ ts₂ : List (Nat × ValueType)} {c₁ c₂ : List Item} :
      ExprCode l (.value τ) s s₁ ts₁ c₁ → ExprCode r (.value τ) s₁ s₂ ts₂ c₂ →
      Gen.arithInstr? op τ = some i →
      ExprCode (.binary n l (.arith op) r) (.value τ) s s₂ (ts₁ ++ ts₂ ++ [(n.id, τ)])
        (c₁ ++ c₂ ++ [.op i])
  | materialize {e : Expr} {s s' : Scope} {ts : List (Nat × ValueType)} {c : List Item} :
      e.isCondition = true →
      ExprCode e (.test (.numbered "FALSE" s.group)) s.next s' ts c →
      ExprCode e (.value .bool) s s' (ts ++ [(e.id, .bool)]) (c ++ materializeCode s.group)
  | grouping {n : Node} {a : Expr} {τ : ValueType} {s s' : Scope}
      {ts : List (Nat × ValueType)} {c : List Item} :
      ExprCode a (.value τ) s s' ts c →
      ExprCode (.grouping n a) (.value τ) s s' (ts ++ [(n.id, τ)]) c
  | assign {n : Node} {x : String} {a : Expr} {τ : ValueType} {slot : Nat} {s s₁ : Scope}
      {f : Frame} {ts : List (Nat × ValueType)} {c : List Item} :
      ExprCode a (.value τ) s s₁ ts c → s₁.frame.assign x τ = (some slot, f) →
      ExprCode (.assign n x a) (.value τ) s { s₁ with frame := f } (ts ++ [(n.id, τ)])
        (c ++ [.op .dup, .op (.store τ slot)])
  | compare {n : Node} {l r : Expr} {k : Comparison} {τ : ValueType} {t : Label} {s s₁ s₂ : Scope}
      {ts₁ ts₂ : List (Nat × ValueType)} {c₁ c₂ : List Item} :
      ExprCode l (.value τ) s s₁ ts₁ c₁ → ExprCode r (.value τ) s₁ s₂ ts₂ c₂ →
      ExprCode (.binary n l (.compare k) r) (.test t) s s₂ (ts₁ ++ ts₂ ++ [(n.id, .bool)])
        (c₁ ++ c₂ ++ k.branch t τ)
  | and {n : Node} {l r : Expr} {t : Label} {s s₁ s₂ : Scope}
      {ts₁ ts₂ : List (Nat × ValueType)} {c₁ c₂ : List Item} :
      ExprCode l (.test t) s s₁ ts₁ c₁ → ExprCode r (.test t) s₁ s₂ ts₂ c₂ →
      ExprCode (.logical n l .and r) (.test t) s s₂ (ts₁ ++ ts₂ ++ [(n.id, .bool)]) (c₁ ++ c₂)
  | or {n : Node} {l r : Expr} {t : Label} {s s₁ s₂ : Scope}
      {ts₁ ts₂ : List (Nat × ValueType)} {c₁ c₂ : List Item} :
      ExprCode l (.test (.numbered "OR_RHS" s.group)) s.next s₁ ts₁ c₁ →
      ExprCode r (.test t) s₁ s₂ ts₂ c₂ →
      ExprCode (.logical n l .or r) (.test t) s s₂ (ts₁ ++ ts₂ ++ [(n.id, .bool)])
        (c₁ ++ [.op (.goto (.numbered "OR_TRUE" s.group)), .label (.numbered "OR_RHS" s.group)] ++
          c₂ ++ [.label (.numbered "OR_TRUE" s.group)])
  | groupingTest {n : Node} {a : Expr} {t : Label} {s s' : Scope}
      {ts : List (Nat × ValueType)} {c : List Item} :
      ExprCode a (.test t) s s' ts c →
      ExprCode (.grouping n a) (.test t) s s' (ts ++ [(n.id, .bool)]) c
  | branch {e : Expr} {t : Label} {s s' : Scope} {ts : List (Nat × ValueType)} {c : List Item} :
      e.isPlain = true → ExprCode e (.value .bool) s s' ts c →
      ExprCode e (.test t) s s' (ts ++ [(e.id, .bool)]) (c ++ [.op (.ifZero .eq t)])

/--
`StmtCode st s s' ts c`: in scope `s`, the pass gives the statement `st` the code
`c`, remembers the types `ts` and goes on in scope `s'`. The statements of a program
are those of a block.
-/
inductive StmtCode : Stmt → Scope → Scope → List (Nat × ValueType) → List Item → Prop
  | declare {sp : Span} {x : String} {e : Expr} {τ : ValueType} {slot : Nat} {s s₁ : Scope}
      {f : Frame} {ts : List (Nat × ValueType)} {c : List Item} :
      ExprCode e (.value τ) s s₁ ts c → s₁.frame.define x τ = (some slot, f) →
      StmtCode (.declare sp x e) s { s₁ with frame := f } ts (c ++ [.op (.store τ slot)])
  | print {sp : Span} {e : Expr} {τ : ValueType} {s s' : Scope}
      {ts : List (Nat × ValueType)} {c : List Item} :
      ExprCode e (.value τ) s s' ts c →
      StmtCode (.print sp e) s s' ts
        ([.op Gen.systemOut] ++ c ++ [.op (.invokeVirtual (Gen.println τ))])
  | read {sp : Span} {x : String} {scanner slot : Nat} {s : Scope} {f f' : Frame} :
      s.frame.useScanner = (some scanner, f) → f.assign x .string = (some slot, f') →
      StmtCode (.read sp x) s { s with frame := f' } []
        [.op (.loadRef scanner), .op (.invokeVirtual Gen.nextLine), .op (.store .string slot)]
  | ifThen {sp : Span} {e : Expr} {yes : Stmt} {s s₁ s₂ : Scope}
      {ts₁ ts₂ : List (Nat × ValueType)} {c₁ c₂ : List Item} :
      ExprCode e (.test (.numbered "END" s.group)) s.next s₁ ts₁ c₁ →
      StmtCode yes s₁ s₂ ts₂ c₂ →
      StmtCode (.ifThen sp e yes) s s₂ (ts₁ ++ ts₂)
        (c₁ ++ [.label (.numbered "THEN" s.group)] ++ c₂ ++ [.label (.numbered "END" s.group)])
  | ifElse {sp : Span} {e : Expr} {yes no : Stmt} {s s₁ s₂ s₃ : Scope}
      {ts₁ ts₂ ts₃ : List (Nat × ValueType)} {c₁ c₂ c₃ : List Item} :
      ExprCode e (.test (.numbered "ELSE" s.group)) s.next s₁ ts₁ c₁ →
      StmtCode yes s₁ s₂ ts₂ c₂ → StmtCode no s₂ s₃ ts₃ c₃ →
      StmtCode (.ifElse sp e yes no) s s₃ (ts₁ ++ ts₂ ++ ts₃)
        (c₁ ++ [.label (.numbered "THEN" s.group)] ++ c₂ ++
          [.op (.goto (.numbered "END" s.group)), .label (.numbered "ELSE" s.group)] ++ c₃ ++
          [.label (.numbered "END" s.group)])
  | whileDo {sp : Span} {e : Expr} {body : Stmt} {s s₁ s₂ : Scope}
      {ts₁ ts₂ : List (Nat × ValueType)} {c₁ c₂ : List Item} :
      ExprCode e (.test (.numbered "LOOP_END" s.group)) s.next s₁ ts₁ c₁ →
      StmtCode body s₁ s₂ ts₂ c₂ →
      StmtCode (.whileDo sp e body) s s₂ (ts₁ ++ ts₂)
        ([.label (.numbered "LOOP_START" s.group)] ++ c₁ ++ c₂ ++
          [.op (.goto (.numbered "LOOP_START" s.group)), .label (.numbered "LOOP_END" s.group)])
  | nil {sp : Span} {s : Scope} : StmtCode (.block sp []) s s [] []
  | cons {sp : Span} {st : Stmt} {sts : List Stmt} {s s₁ s₂ : Scope}
      {ts₁ ts₂ : List (Nat × ValueType)} {c₁ c₂ : List Item} :
      StmtCode st s s₁ ts₁ c₁ → StmtCode (.block sp sts) s₁ s₂ ts₂ c₂ →
      StmtCode (.block sp (st :: sts)) s s₂ (ts₁ ++ ts₂) (c₁ ++ c₂)
  | store {sp : Span} {n : Node} {x : String} {a : Expr} {τ : ValueType} {slot : Nat}
      {s s₁ : Scope} {f : Frame} {ts : List (Nat × ValueType)} {c : List Item} :
      ExprCode a (.value τ) s s₁ ts c → s₁.frame.assign x τ = (some slot, f) →
      StmtCode (.expression sp (.assign n x a)) s { s₁ with frame := f } (ts ++ [(n.id, τ)])
        (c ++ [.op (.store τ slot)])
  | drop {sp : Span} {e : Expr} {τ : ValueType} {s s' : Scope}
      {ts : List (Nat × ValueType)} {c : List Item} :
      e.isAssign = false → ExprCode e (.value τ) s s' ts c →
      StmtCode (.expression sp e) s s' ts (c ++ [.op .pop])

/-! ## Appending to the state -/

/-- From `g` to `g'` the pass has appended the code `c` and remembered the types `ts`. -/
structure Generator.Adds (g g' : Generator) (ts : List (Nat × ValueType)) (c : List Item) :
    Prop where
  code : g'.code = c.reverse ++ g.code
  types : g'.types = ts.foldl (fun m r => m.insert r.1 r.2) g.types

namespace Generator.Adds

variable {g g' g'' : Generator} {ts ts' : List (Nat × ValueType)} {c c' : List Item}

theorem refl (g : Generator) : g.Adds g [] [] := ⟨rfl, rfl⟩

theorem trans (h : g.Adds g' ts c) (h' : g'.Adds g'' ts' c') :
    g.Adds g'' (ts ++ ts') (c ++ c') :=
  ⟨by rw [h'.code, h.code, List.reverse_append, List.append_assoc],
    by rw [h'.types, h.types, List.foldl_append]⟩

theorem push (h : g.Adds g' ts c) (x : Item) : g.Adds (g'.push x) ts (c ++ [x]) := by
  refine ⟨?_, h.types⟩
  simp [Generator.push, h.code]

theorem note (h : g.Adds g' ts c) (id : Nat) (τ : ValueType) :
    g.Adds (g'.note id τ) (ts ++ [(id, τ)]) c := by
  refine ⟨h.code, ?_⟩
  simp [Generator.note, h.types, List.foldl_append]

/-- Only code and types of the first state matter. -/
theorem of_same {g₀ : Generator} (h : g₀.Adds g' ts c) (hcode : g₀.code = g.code)
    (htypes : g₀.types = g.types) : g.Adds g' ts c :=
  ⟨by rw [h.code, hcode], by rw [h.types, htypes]⟩

/-- The code in order. -/
theorem items (h : g.Adds g' ts c) : g'.items = g.items ++ c := by
  simp [Generator.items, h.code]

end Generator.Adds

/-! ## Every successful pass is described -/

namespace Gen

/-- The pass got from `g` to `g'` by the code of `e` in position `pos`. -/
def EmitsExpr (e : Expr) (pos : ExprPosition) (g g' : Generator) : Prop :=
  ∃ ts c, ExprCode e pos g.scope g'.scope ts c ∧ g.Adds g' ts c

/-- Every successful pass over `e` in value position is described. -/
def ValueEmits (e : Expr) : Prop :=
  ∀ τ g g', Yields (value e) g τ g' → EmitsExpr e (.value τ) g g'

/-- Every successful pass over `e` in condition position is described. -/
def TestEmits (e : Expr) : Prop :=
  ∀ t g g', Yields (test e t) g () g' → EmitsExpr e (.test t) g g'

/-- The pass got from `g` to `g'` by the code of `st`. -/
def EmitsStmt (st : Stmt) (g g' : Generator) : Prop :=
  ∃ ts c, StmtCode st g.scope g'.scope ts c ∧ g.Adds g' ts c

theorem value_of_isCondition {e : Expr} (h : e.isCondition = true) :
    value e = typed e.node (materialize (test e)) := by
  cases e with
  | binary n l op r => cases op with
    | arith op => cases h
    | compare k => simp only [value, test]; rfl
  | logical n l op r => simp only [value, test]; rfl
  | literal n v => cases h
  | var n x => cases h
  | unary n op a => cases h
  | grouping n a => cases h
  | assign n x a => cases h

theorem test_of_isPlain {e : Expr} (h : e.isPlain = true) (t : Label) :
    test e t = routed e.node t (testValue e.line t (value e)) := by
  cases e with
  | binary n l op r => cases op with
    | arith op => simp only [value, test]; rfl
    | compare k => cases h
  | logical n l op r => cases h
  | literal n v => simp only [value, test]; rfl
  | var n x => simp only [value, test]; rfl
  | unary n op a => simp only [value, test]; rfl
  | grouping n a => cases h
  | assign n x a => simp only [value, test]; rfl

variable {e : Expr} {g g' : Generator}

theorem value_emits_of_test (hc : e.isCondition = true) (ih : TestEmits e) : ValueEmits e := by
  intro τ g g' h
  rw [value_of_isCondition hc, yields_typed] at h
  obtain ⟨g₁, h, rfl⟩ := h
  simp only [materialize, yields_bind, yields_newGroup, yields_emit, yields_place, yields_pure] at h
  obtain ⟨_, _, ⟨rfl, rfl⟩, _, g₂, ht, _, _, rfl, _, _, rfl, _, _, rfl, _, _, rfl, _, _, rfl, rfl,
    rfl⟩ := h
  obtain ⟨ts, c, hcode, hadds⟩ := ih _ _ _ ht
  refine ⟨_, _, .materialize hc hcode, ?_⟩
  -- taking a group and a target leaves code and types alone, hence `of_same`
  have htrue := ((hadds.of_same rfl rfl : g.Adds g₂ ts c).push (.op (.iconst 1))).push
    (.op (.goto (.numbered "BOOL_END" g.nextGroup)))
  have hfalse := (htrue.push (.label (.numbered "FALSE" g.nextGroup))).push (.op (.iconst 0))
  simpa [materializeCode, Generator.scope, Expr.id] using
    (hfalse.push (.label (.numbered "BOOL_END" g.nextGroup))).note e.node.id .bool

theorem test_emits_of_value (hp : e.isPlain = true) (ih : ValueEmits e) : TestEmits e := by
  intro t g g' h
  rw [test_of_isPlain hp, yields_routed] at h
  obtain ⟨g₁, h, rfl⟩ := h
  simp only [testValue, yields_bind] at h
  obtain ⟨τ, g₂, hv, h⟩ := h
  split at h
  · rename_i hτ
    subst hτ
    rw [yields_emit] at h
    subst h
    obtain ⟨ts, c, hcode, hadds⟩ := ih _ _ _ hv
    exact ⟨_, _, .branch hp hcode,
      ((hadds.of_same rfl rfl : g.Adds g₂ ts c).push _).note e.node.id .bool⟩
  · exact absurd h not_yields_refuse

theorem yields_branchUnless {k : Comparison} {t : Label} {τ : ValueType} {u : Unit}
    {ts : List (Nat × ValueType)} {c : List Item} {g₀ : Generator} (hadds : g₀.Adds g ts c)
    (h : Yields (branchUnless k t τ) g u g') :
    g'.scope = g.scope ∧ g₀.Adds g' ts (c ++ k.branch t τ) := by
  cases τ with
  | numeric =>
      simp only [branchUnless, yields_bind, yields_emit] at h
      obtain ⟨_, _, rfl, rfl⟩ := h
      exact ⟨rfl, by simpa [Comparison.branch] using (hadds.push _).push _⟩
  | string =>
      simp only [branchUnless, yields_bind, yields_emit] at h
      obtain ⟨_, _, rfl, rfl⟩ := h
      exact ⟨rfl, by simpa [Comparison.branch] using (hadds.push _).push _⟩
  | bool =>
      simp only [branchUnless, yields_emit] at h
      subst h
      exact ⟨rfl, hadds.push _⟩

theorem literal_emits (n : Node) (v : Literal) : ValueEmits (.literal n v) := by
  intro τ g g' h
  rw [value, yields_typed] at h
  obtain ⟨g₁, h, rfl⟩ := h
  cases v with
  | null => exact absurd h not_yields_refuse
  | number x =>
      simp only [pushLiteral, yields_bind, yields_emit, yields_pure] at h
      obtain ⟨_, _, rfl, rfl, rfl⟩ := h
      exact ⟨_, _, .literal rfl, ((Generator.Adds.refl g).push _).note _ _⟩
  | string s =>
      simp only [pushLiteral, yields_bind, yields_emit, yields_pure] at h
      obtain ⟨_, _, rfl, rfl, rfl⟩ := h
      exact ⟨_, _, .literal rfl, ((Generator.Adds.refl g).push _).note _ _⟩
  | bool b =>
      simp only [pushLiteral, yields_bind, yields_emit, yields_pure] at h
      obtain ⟨_, _, rfl, rfl, rfl⟩ := h
      exact ⟨_, _, .literal rfl, ((Generator.Adds.refl g).push _).note _ _⟩

theorem var_emits (n : Node) (x : String) : ValueEmits (.var n x) := by
  intro τ g g' h
  rw [value, yields_typed] at h
  obtain ⟨g₁, h, rfl⟩ := h
  simp only [pushVariable, yields_bind, yields_onFrame, yields_orRefuse, yields_emit,
    yields_pure] at h
  obtain ⟨_, _, ⟨rfl, rfl⟩, v, _, ⟨hv, rfl⟩, _, _, rfl, rfl, rfl⟩ := h
  exact ⟨_, _, .var hv, ((Generator.Adds.refl g).push _).note _ _⟩

theorem unary_emits {a : Expr} (ih : ValueEmits a) (n : Node) (op : UnaryOp) :
    ValueEmits (.unary n op a) := by
  intro τ g g' h
  rw [value, yields_typed] at h
  obtain ⟨g₁, h, rfl⟩ := h
  simp only [applyUnary, yields_bind] at h
  obtain ⟨σ, g₂, ha, h⟩ := h
  obtain ⟨ts, c, hcode, hadds⟩ := ih _ _ _ ha
  split at h
  · simp only [yields_bind, yields_emit, yields_pure] at h
    obtain ⟨_, _, rfl, _, _, rfl, rfl, rfl⟩ := h
    refine ⟨_, _, .not hcode, ?_⟩
    simpa using ((hadds.push _).push _).note n.id .bool
  · simp only [yields_bind, yields_emit, yields_pure] at h
    obtain ⟨_, _, rfl, rfl, rfl⟩ := h
    exact ⟨_, _, .neg hcode, (hadds.push _).note _ _⟩
  · exact absurd h not_yields_refuse

theorem arith_emits {l r : Expr} (ihl : ValueEmits l) (ihr : ValueEmits r) (n : Node)
    (op : ArithOp) : ValueEmits (.binary n l (.arith op) r) := by
  intro τ g g' h
  rw [value, yields_typed] at h
  obtain ⟨g₁, h, rfl⟩ := h
  simp only [applyArith, yields_bind] at h
  obtain ⟨σ, g₂, hl, ρ, g₃, hr, h⟩ := h
  obtain ⟨ts₁, c₁, hcode₁, hadds₁⟩ := ihl _ _ _ hl
  obtain ⟨ts₂, c₂, hcode₂, hadds₂⟩ := ihr _ _ _ hr
  split at h
  · rename_i i hi
    split at hi
    · rename_i heq
      subst heq
      simp only [yields_bind, yields_emit, yields_pure] at h
      obtain ⟨_, _, rfl, rfl, rfl⟩ := h
      exact ⟨_, _, .arith hcode₁ hcode₂ hi, ((hadds₁.trans hadds₂).push _).note _ _⟩
    · cases hi
  · exact absurd h not_yields_refuse

theorem compare_emits {l r : Expr} (ihl : ValueEmits l) (ihr : ValueEmits r) (n : Node)
    (k : Comparison) : TestEmits (.binary n l (.compare k) r) := by
  intro t g g' h
  rw [test, yields_routed] at h
  obtain ⟨g₁, h, rfl⟩ := h
  simp only [testCompare, yields_bind] at h
  obtain ⟨σ, g₂, hl, ρ, g₃, hr, h⟩ := h
  obtain ⟨ts₁, c₁, hcode₁, hadds₁⟩ := ihl _ _ _ hl
  obtain ⟨ts₂, c₂, hcode₂, hadds₂⟩ := ihr _ _ _ hr
  split at h
  · rename_i heq
    subst heq
    have hadds : g.Adds g₃ (ts₁ ++ ts₂) (c₁ ++ c₂) :=
      (hadds₁.trans hadds₂).of_same rfl rfl
    obtain ⟨hscope, hall⟩ := yields_branchUnless hadds h
    refine ⟨_, _, ?_, hall.note n.id .bool⟩
    rw [show (g₁.note n.id .bool).scope = g₃.scope from hscope]
    exact .compare hcode₁ hcode₂
  · exact absurd h not_yields_refuse

theorem logical_emits {l r : Expr} (ihl : TestEmits l) (ihr : TestEmits r) (n : Node)
    (op : LogicalOp) : TestEmits (.logical n l op r) := by
  intro t g g' h
  rw [test, yields_routed] at h
  obtain ⟨g₁, h, rfl⟩ := h
  cases op with
  | and =>
      simp only [testLogical, testBoth, yields_bind] at h
      obtain ⟨_, g₂, hl, hr⟩ := h
      obtain ⟨ts₁, c₁, hcode₁, hadds₁⟩ := ihl _ _ _ hl
      obtain ⟨ts₂, c₂, hcode₂, hadds₂⟩ := ihr _ _ _ hr
      exact ⟨_, _, .and hcode₁ hcode₂,
        ((hadds₁.trans hadds₂).of_same rfl rfl : g.Adds g₁ _ _).note _ _⟩
  | or =>
      simp only [testLogical, testEither, yields_bind, yields_newGroup, yields_emit,
        yields_place] at h
      obtain ⟨_, _, ⟨rfl, rfl⟩, _, g₂, hl, _, _, rfl, _, _, rfl, _, g₃, hr, rfl⟩ := h
      obtain ⟨ts₁, c₁, hcode₁, hadds₁⟩ := ihl _ _ _ hl
      obtain ⟨ts₂, c₂, hcode₂, hadds₂⟩ := ihr _ _ _ hr
      refine ⟨_, _, .or hcode₁ hcode₂, ?_⟩
      have hleft := (((hadds₁.of_same rfl rfl : g.Adds g₂ ts₁ c₁).push
        (.op (.goto (.numbered "OR_TRUE" g.nextGroup)))).push
        (.label (.numbered "OR_RHS" g.nextGroup))).trans hadds₂
      simpa [Generator.scope] using
        (hleft.push (.label (.numbered "OR_TRUE" g.nextGroup))).note n.id .bool

theorem grouping_emits {a : Expr} (ih : ValueEmits a) (n : Node) :
    ValueEmits (.grouping n a) := by
  intro τ g g' h
  rw [value, yields_typed] at h
  obtain ⟨g₁, h, rfl⟩ := h
  obtain ⟨ts, c, hcode, hadds⟩ := ih _ _ _ h
  exact ⟨_, _, .grouping hcode, hadds.note _ _⟩

theorem groupingTest_emits {a : Expr} (ih : TestEmits a) (n : Node) :
    TestEmits (.grouping n a) := by
  intro t g g' h
  rw [test, yields_routed] at h
  obtain ⟨g₁, h, rfl⟩ := h
  obtain ⟨ts, c, hcode, hadds⟩ := ih _ _ _ h
  exact ⟨_, _, .groupingTest hcode,
    (hadds.of_same rfl rfl : g.Adds g₁ ts c).note _ _⟩

theorem assign_emits {a : Expr} (ih : ValueEmits a) (n : Node) (x : String) :
    ValueEmits (.assign n x a) := by
  intro τ g g' h
  rw [value, yields_typed] at h
  obtain ⟨g₁, h, rfl⟩ := h
  simp only [assign, yields_bind, yields_onFrame, yields_orRefuse, if_true, yields_emit,
    yields_pure] at h
  obtain ⟨σ, g₂, ha, _, _, ⟨rfl, rfl⟩, slot, _, ⟨hslot, rfl⟩, _, _, rfl, _, _, rfl, rfl, rfl⟩ := h
  obtain ⟨ts, c, hcode, hadds⟩ := ih _ _ _ ha
  refine ⟨_, _, .assign hcode (Prod.ext hslot rfl), ?_⟩
  have hmoved : g.Adds { g₂ with frame := (g₂.frame.assign x τ).2 } ts c :=
    ⟨hadds.code, hadds.types⟩
  simpa using ((hmoved.push (.op .dup)).push (.op (.store τ slot))).note n.id τ

/-- The pass over an expression, in both positions at once. -/
theorem expr_emits (e : Expr) : ValueEmits e ∧ TestEmits e := by
  induction e with
  | literal n v =>
      have hv := literal_emits n v
      exact ⟨hv, test_emits_of_value rfl hv⟩
  | var n x =>
      have hv := var_emits n x
      exact ⟨hv, test_emits_of_value rfl hv⟩
  | unary n op a ih =>
      have hv := unary_emits ih.1 n op
      exact ⟨hv, test_emits_of_value rfl hv⟩
  | binary n l op r ihl ihr =>
      cases op with
      | arith op =>
          have hv := arith_emits ihl.1 ihr.1 n op
          exact ⟨hv, test_emits_of_value rfl hv⟩
      | compare k =>
          have ht := compare_emits ihl.1 ihr.1 n k
          exact ⟨value_emits_of_test rfl ht, ht⟩
  | logical n l op r ihl ihr =>
      have ht := logical_emits ihl.2 ihr.2 n op
      exact ⟨value_emits_of_test rfl ht, ht⟩
  | grouping n a ih => exact ⟨grouping_emits ih.1 n, groupingTest_emits ih.2 n⟩
  | assign n x a ih =>
      have hv := assign_emits ih.1 n x
      exact ⟨hv, test_emits_of_value rfl hv⟩

theorem value_emits {τ : ValueType} (h : Yields (value e) g τ g') : EmitsExpr e (.value τ) g g' :=
  (expr_emits e).1 _ _ _ h

theorem test_emits {t : Label} (h : Yields (test e t) g () g') : EmitsExpr e (.test t) g g' :=
  (expr_emits e).2 _ _ _ h

theorem declare_emits {sp : Span} {x : String} (h : Yields (stmt (.declare sp x e)) g () g') :
    EmitsStmt (.declare sp x e) g g' := by
  simp only [stmt, declare, yields_bind, yields_onFrame, yields_orRefuse, yields_emit] at h
  obtain ⟨τ, g₁, hv, _, _, ⟨rfl, rfl⟩, slot, _, ⟨hslot, rfl⟩, rfl⟩ := h
  obtain ⟨ts, c, hcode, hadds⟩ := value_emits hv
  have hmoved : g.Adds { g₁ with frame := (g₁.frame.define x τ).2 } ts c :=
    ⟨hadds.code, hadds.types⟩
  exact ⟨_, _, .declare hcode (Prod.ext hslot rfl), hmoved.push _⟩

theorem print_emits {sp : Span} (h : Yields (stmt (.print sp e)) g () g') :
    EmitsStmt (.print sp e) g g' := by
  simp only [stmt, print, yields_bind, yields_emit] at h
  obtain ⟨_, _, rfl, τ, g₁, hv, rfl⟩ := h
  obtain ⟨ts, c, hcode, hadds⟩ := value_emits hv
  exact ⟨_, _, .print hcode, (((Generator.Adds.refl g).push _).trans hadds).push _⟩

theorem read_emits {sp : Span} {x : String} (h : Yields (stmt (.read sp x)) g () g') :
    EmitsStmt (.read sp x) g g' := by
  simp only [stmt, read, yields_bind, yields_onFrame, yields_orRefuse, yields_emit] at h
  obtain ⟨_, _, ⟨rfl, rfl⟩, _, _, ⟨_, rfl⟩, _, _, ⟨rfl, rfl⟩, scanner, _, ⟨hscanner, rfl⟩,
    _, _, rfl, _, _, rfl, _, _, ⟨rfl, rfl⟩, slot, _, ⟨hslot, rfl⟩, rfl⟩ := h
  refine ⟨_, _, .read (Prod.ext hscanner rfl) (Prod.ext hslot rfl), ?_, ?_⟩
  · rfl
  · rfl

theorem discard_emits {sp : Span} (h : Yields (stmt (.expression sp e)) g () g') :
    EmitsStmt (.expression sp e) g g' := by
  rw [stmt] at h
  -- an assignment whose value is not wanted stores it without keeping a copy
  by_cases ha : e.isAssign = true
  · cases e with
    | assign n x a =>
        simp only [discard, yields_bind, yields_pure, yields_typed, assign, yields_onFrame,
          yields_orRefuse, Bool.false_eq_true, if_false, yields_emit] at h
        obtain ⟨τ, _, ⟨_, ⟨_, g₁, hv, _, _, ⟨rfl, rfl⟩, slot, _, ⟨hslot, rfl⟩, _, _, rfl, rfl, rfl⟩,
          rfl⟩, _, rfl⟩ := h
        obtain ⟨ts, c, hcode, hadds⟩ := value_emits hv
        have hmoved : g.Adds { g₁ with frame := (g₁.frame.assign x τ).2 } ts c :=
          ⟨hadds.code, hadds.types⟩
        exact ⟨_, _, .store hcode (Prod.ext hslot rfl), (hmoved.push _).note _ _⟩
    | literal n v => cases ha
    | var n x => cases ha
    | unary n op a => cases ha
    | binary n l op r => cases ha
    | logical n l op r => cases ha
    | grouping n a => cases ha
  · have hd : discard e = (do let _ ← value e; emit .pop) := by
      cases e with
      | assign n x a => exact absurd rfl ha
      | _ => rfl
    rw [hd] at h
    simp only [yields_bind, yields_emit] at h
    obtain ⟨τ, g₁, hv, rfl⟩ := h
    obtain ⟨ts, c, hcode, hadds⟩ := value_emits hv
    exact ⟨_, _, .drop (by simpa using ha) hcode, hadds.push _⟩

mutual

/-- The pass over a statement. -/
theorem stmt_emits : ∀ (st : Stmt) {g g' : Generator}, Yields (stmt st) g () g' → EmitsStmt st g g'
  | .declare _ _ _, _, _, h => declare_emits h
  | .print _ _, _, _, h => print_emits h
  | .read _ _, _, _, h => read_emits h
  | .expression _ _, _, _, h => discard_emits h
  | .block sp ss, _, _, h => stmts_emits ss sp (by rwa [stmt] at h)
  | .ifThen sp e yes, g, g', h => by
      simp only [stmt, ifThen, yields_bind, yields_newGroup, yields_place] at h
      obtain ⟨_, _, ⟨rfl, rfl⟩, _, g₁, ht, _, _, rfl, _, g₂, hy, rfl⟩ := h
      obtain ⟨ts₁, c₁, hcode₁, hadds₁⟩ := test_emits ht
      obtain ⟨ts₂, c₂, hcode₂, hadds₂⟩ := stmt_emits yes hy
      exact ⟨_, _, .ifThen hcode₁ hcode₂,
        (((hadds₁.of_same rfl rfl : g.Adds g₁ ts₁ c₁).push _).trans hadds₂).push _⟩
  | .ifElse sp e yes no, g, g', h => by
      simp only [stmt, ifElse, yields_bind, yields_newGroup, yields_place, yields_emit] at h
      obtain ⟨_, _, ⟨rfl, rfl⟩, _, g₁, ht, _, _, rfl, _, g₂, hy, _, _, rfl, _, _, rfl, _, g₃, hn,
        rfl⟩ := h
      obtain ⟨ts₁, c₁, hcode₁, hadds₁⟩ := test_emits ht
      obtain ⟨ts₂, c₂, hcode₂, hadds₂⟩ := stmt_emits yes hy
      obtain ⟨ts₃, c₃, hcode₃, hadds₃⟩ := stmt_emits no hn
      have hyes := ((hadds₁.of_same rfl rfl : g.Adds g₁ ts₁ c₁).push
        (.label (.numbered "THEN" g.nextGroup))).trans hadds₂
      have hno := ((hyes.push (.op (.goto (.numbered "END" g.nextGroup)))).push
        (.label (.numbered "ELSE" g.nextGroup))).trans hadds₃
      refine ⟨_, _, .ifElse hcode₁ hcode₂ hcode₃, ?_⟩
      simpa [Generator.scope] using hno.push (.label (.numbered "END" g.nextGroup))
  | .whileDo sp e body, g, g', h => by
      simp only [stmt, whileDo, yields_bind, yields_newGroup, yields_place, yields_emit] at h
      obtain ⟨_, _, ⟨rfl, rfl⟩, _, _, rfl, _, g₁, ht, _, g₂, hb, _, _, rfl, rfl⟩ := h
      obtain ⟨ts₁, c₁, hcode₁, hadds₁⟩ := test_emits ht
      obtain ⟨ts₂, c₂, hcode₂, hadds₂⟩ := stmt_emits body hb
      have hstart : g.Adds ({ g with nextGroup := g.nextGroup + 1 }.push
          (.label (.numbered "LOOP_START" g.nextGroup))) [] _ :=
        ((Generator.Adds.refl _).push _).of_same rfl rfl
      have hbody := ((hstart.trans hadds₁).trans hadds₂).push
        (.op (.goto (.numbered "LOOP_START" g.nextGroup)))
      refine ⟨_, _, .whileDo hcode₁ hcode₂, ?_⟩
      simpa [Generator.scope] using hbody.push (.label (.numbered "LOOP_END" g.nextGroup))

/-- The pass over the statements of a block. -/
theorem stmts_emits : ∀ (ss : List Stmt) (sp : Span) {g g' : Generator},
    Yields (stmts ss) g () g' → EmitsStmt (.block sp ss) g g'
  | [], _, g, g', h => by
      simp only [stmts, yields_pure, true_and] at h
      subst h
      exact ⟨_, _, .nil, .refl _⟩
  | st :: ss, sp, g, g', h => by
      simp only [stmts, yields_bind] at h
      obtain ⟨_, g₁, h₁, h₂⟩ := h
      obtain ⟨ts₁, c₁, hcode₁, hadds₁⟩ := stmt_emits st h₁
      obtain ⟨ts₂, c₂, hcode₂, hadds₂⟩ := stmts_emits ss sp h₂
      exact ⟨_, _, .cons hcode₁ hcode₂, hadds₁.trans hadds₂⟩

end

end Gen

namespace Generator

variable {g g' : Generator} {p : Program}

/-- **The code of a program**, as a pass appends it to what there was before. -/
theorem generate_emits (h : g.generate p = (.ok (), g')) :
    Gen.EmitsStmt (.block p.span p.stmts) g g' :=
  Gen.stmts_emits p.stmts p.span h

/-! ## Finished code -/

/-- What stands in front of the code of the program. -/
def prologue (g : Generator) : List Item :=
  match g.frame.scanner with
  | some slot => (Gen.openScanner slot).map .op
  | none => []

theorem finishedItems_eq (g : Generator) : g.finishedItems = g.prologue ++ g.items := by
  unfold finishedItems prologue
  cases g.frame.scanner <;> rfl

/-- The code and the types of a program that a fresh pass has gone through. -/
theorem generate_code (h : empty.generate p = (.ok (), g)) :
    ∃ ts, StmtCode (.block p.span p.stmts) .empty g.scope ts g.items ∧
      g.types = ts.foldl (fun m r => m.insert r.1 r.2) ∅ := by
  obtain ⟨ts, c, hcode, hadds⟩ := generate_emits h
  refine ⟨ts, ?_, hadds.types⟩
  rw [hadds.items]
  exact hcode

theorem finish_eq_ok {a : Assembly} (h : g.finish = .ok a) :
    ∃ depth, a = ⟨g.finishedItems, depth, g.frame.locals⟩ := by
  unfold finish Assembly.ofItems at h
  cases hl : Code.checkLabels g.finishedItems with
  | error e => rw [hl] at h; cases h
  | ok _ =>
      cases hd : Code.maxDepth g.finishedItems with
      | error e => rw [hl, hd] at h; cases h
      | ok d => rw [hl, hd] at h; cases h; exact ⟨d, rfl⟩

theorem items_of_finish {a : Assembly} (h : g.finish = .ok a) : a.items = g.finishedItems := by
  obtain ⟨_, rfl⟩ := finish_eq_ok h
  rfl

theorem maxLocals_of_finish {a : Assembly} (h : g.finish = .ok a) :
    a.maxLocals = g.frame.locals := by
  obtain ⟨_, rfl⟩ := finish_eq_ok h
  rfl

end Generator

theorem Program.assemble_eq_ok {p : Program} {a : Assembly} :
    p.assemble = .ok a ↔ ∃ g, Generator.empty.generate p = (.ok (), g) ∧ g.finish = .ok a := by
  unfold assemble
  rcases hg : Generator.empty.generate p with ⟨e | _, g⟩
  · simp
  · simp

/-! ## A program with code -/

/-- Reads a name and greets it, unless it is empty. -/
def Program.greeting : Program where
  span := default
  stmts := [
    .declare default "name" (.literal ⟨0, default⟩ (.string "")),
    .declare default "zero" (.literal ⟨1, default⟩ (.number (.zero false))),
    .read default "name",
    .declare default "more" (.logical ⟨2, default⟩
      (.binary ⟨3, default⟩ (.var ⟨4, default⟩ "name") (.compare .ne)
        (.literal ⟨5, default⟩ (.string "")))
      .or
      (.binary ⟨6, default⟩ (.unary ⟨7, default⟩ .neg (.var ⟨8, default⟩ "zero")) (.compare .lt)
        (.var ⟨9, default⟩ "zero"))),
    .whileDo default (.var ⟨10, default⟩ "more") (.block default [
      .print default (.binary ⟨11, default⟩ (.literal ⟨12, default⟩ (.string "hello "))
        (.arith .add) (.var ⟨13, default⟩ "name")),
      .expression default (.assign ⟨14, default⟩ "more"
        (.unary ⟨15, default⟩ .not (.var ⟨16, default⟩ "more")))]),
    .ifElse default
      (.logical ⟨17, default⟩ (.var ⟨18, default⟩ "more") .and
        (.grouping ⟨19, default⟩ (.literal ⟨20, default⟩ (.bool true))))
      (.expression default (.var ⟨21, default⟩ "name"))
      (.print default (.var ⟨22, default⟩ "zero"))]

theorem Program.greeting_assembles : ∃ a, greeting.assemble = .ok a := by
  have hok : greeting.assemble.isOk = true := by decide +kernel
  cases h : greeting.assemble with
  | ok a => exact ⟨a, rfl⟩
  | error e => rw [h] at hok; cases hok

end Dam
