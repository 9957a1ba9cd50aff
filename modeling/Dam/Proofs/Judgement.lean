import Dam.Proofs.Emission

/-!
# Judging expressions

Whether the pass refuses an expression, why, and what it makes of the frame, does not
depend on the code: not on what was emitted before, and not on the position in which the
expression stands. `Expr.judge` is the pass without code. It goes through an expression
once, while the pass goes back and forth between its two positions, each of which has
some expressions done by the other; both come to the same (`both_follow`).
-/

namespace Dam

/-! ## The rules -/

/-- A step of judging: it looks at the frame only. -/
abbrev Judge := ExceptT CodeError (StateM Frame)

namespace Judge

variable {α : Type}

/-- Refuses the expression. -/
def refuse (line : Nat) (fault : CodeFault) : Judge α := throw ⟨fault, some line⟩

/-- Works on the frame. -/
def onFrame (f : Frame → α × Frame) : Judge α := modifyGet f

/-- The result of a step that has one, or a refusal. -/
def orRefuse (line : Nat) (fault : CodeFault) : Option α → Judge α
  | some a => pure a
  | none => refuse line fault

/-- The type of a variable. -/
def lookUp (line : Nat) (x : String) : Judge ValueType := do
  let found ← onFrame fun f => (f.table[x]?, f)
  let v ← orRefuse line (.undefinedVariable x) found
  return v.type

/-- Stores a value of a type into a variable. -/
def store (line : Nat) (x : String) (τ : ValueType) : Judge ValueType := do
  let slot ← onFrame fun f => f.assign x τ
  let _ ← orRefuse line (.undefinedVariable x) slot
  return τ

/-- Refuses what is not a condition. -/
def condition (line : Nat) (τ : ValueType) : Judge Unit :=
  if τ = .bool then pure () else refuse line (.nonBooleanCondition τ)

end Judge

/-- The type of a constant. -/
def Literal.type? : Literal → Option ValueType
  | number _ => some .numeric
  | string _ => some .string
  | bool _ => some .bool
  | null => none

/-- The type that an operator gives to an operand of a type. -/
def UnaryOp.type? : UnaryOp → ValueType → Option ValueType
  | not, .bool => some .bool
  | neg, .numeric => some .numeric
  | _, _ => none

/-- The type that an operator gives to two operands of a type. -/
def BinaryOp.type? : BinaryOp → ValueType → Option ValueType
  | arith _, .numeric => some .numeric
  | arith .add, .string => some .string
  | arith _, _ => none
  | compare _, _ => some .bool

/-- There is a type for the result of arithmetic if there is an instruction for it. -/
theorem BinaryOp.type?_arith (op : ArithOp) (τ : ValueType) :
    BinaryOp.type? (.arith op) τ = (Gen.arithInstr? op τ).map fun _ => τ := by
  cases τ <;> cases op <;> rfl

namespace Expr

/-- The expression inside the parentheses. -/
def core : Expr → Expr
  | grouping _ a => a.core
  | e => e

/-- The type of an expression, or why it has none. -/
def judge : Expr → Judge ValueType
  | literal n v => .orRefuse n.line .untypedNull v.type?
  | var n x => .lookUp n.line x
  | unary _ op a => do
    let τ ← a.judge
    .orRefuse a.line (.invalidOperand op τ) (op.type? τ)
  | binary _ l op r => do
    let τ ← l.judge
    let σ ← r.judge
    .orRefuse l.line (.typeMismatch op τ σ) (if τ = σ then op.type? τ else none)
  | logical _ l _ r => do
    let τ ← l.judge
    .condition l.core.line τ
    let σ ← r.judge
    .condition r.core.line σ
    return .bool
  | grouping _ a => a.judge
  | assign n x a => do
    let τ ← a.judge
    .store n.line x τ

/-- Whether an expression is a condition, or why it is none. -/
def judgeTest (e : Expr) : Judge Unit := do
  let τ ← e.judge
  .condition e.core.line τ

end Expr

/-! ## Steps that follow the rules -/

theorem Judge.run_condition (line : Nat) (τ : ValueType) (fr : Frame) :
    (Judge.condition line τ).run fr =
      (if τ = .bool then .ok () else .error ⟨.nonBooleanCondition τ, some line⟩, fr) := by
  unfold condition
  split <;> rfl

namespace Gen

variable {α β : Type}

/-- Whatever was emitted before, the step `m` ends as `j` does and leaves the same frame. -/
def Follows (m : Gen α) (j : Judge α) : Prop :=
  ∀ g, j.run g.frame = ((m.run g).1, (m.run g).2.frame)

theorem follows_pure (a : α) : Follows (pure a) (pure a) := fun _ => rfl

theorem follows_refuse (line : Nat) (fault : CodeFault) :
    Follows (refuse line fault : Gen α) (.refuse line fault) := fun _ => rfl

theorem follows_orRefuse (line : Nat) (fault : CodeFault) (o : Option α) :
    Follows (orRefuse line fault o) (.orRefuse line fault o) := by
  cases o <;> exact fun _ => rfl

theorem follows_onFrame (f : Frame → α × Frame) : Follows (onFrame f) (.onFrame f) := fun _ => rfl

-- Code, labels and what is remembered of nodes have nothing to do with the frame.

theorem follows_emit (i : Instr) : Follows (emit i) (pure ()) := fun _ => rfl

theorem follows_place (l : Label) : Follows (place l) (pure ()) := fun _ => rfl

theorem follows_record (id : Nat) (τ : ValueType) : Follows (record id τ) (pure ()) := fun _ => rfl

theorem follows_register (id : Nat) (l : Label) : Follows (register id l) (pure ()) := fun _ => rfl

variable {m : Gen α} {j : Judge α}

theorem Follows.bind {f : α → Gen β} {k : α → Judge β} (hm : Follows m j)
    (hf : ∀ a, Follows (f a) (k a)) : Follows (m >>= f) (j >>= k) := by
  intro g
  rw [run_bind, run_bind, hm g]
  rcases m.run g with ⟨e | a, g'⟩
  · rfl
  · exact hf a g'

/-- Which number a group of labels gets does not matter. -/
theorem Follows.newGroup {f : Nat → Gen β} {k : Judge β} (hf : ∀ n, Follows (f n) k) :
    Follows (newGroup >>= f) k :=
  fun g => hf g.nextGroup { g with nextGroup := g.nextGroup + 1 }

theorem Follows.before {u : Gen Unit} {f : Unit → Gen β} {k : Judge β} (hu : Follows u (pure ()))
    (hf : Follows (f ()) k) : Follows (u >>= f) k := by
  have hboth := hu.bind (k := fun _ => k) fun _ => hf
  rwa [pure_bind] at hboth

theorem Follows.behind {f : α → Gen α} (hm : Follows m j) (hf : ∀ a, Follows (f a) (pure a)) :
    Follows (m >>= f) j := by
  have hboth := hm.bind hf
  rwa [bind_pure] at hboth

/-! ## Pieces of code -/

section

variable {m m' : Gen ValueType} {j j' : Judge ValueType} {t t' : Label → Gen Unit}
  {i i' : Judge Unit} (line : Nat) (l : Label)

theorem Follows.typed (n : Node) (hm : Follows m j) : Follows (typed n m) j :=
  hm.behind fun τ => (follows_record n.id τ).before (follows_pure τ)

theorem Follows.routed {m : Gen Unit} (n : Node) (hm : Follows m i) : Follows (routed n l m) i :=
  (follows_register n.id l).before (hm.behind fun _ => follows_record n.id .bool)

theorem Follows.testValue (hm : Follows m j) :
    Follows (testValue line l m) (j >>= Judge.condition line) := by
  refine hm.bind fun τ => ?_
  unfold Judge.condition
  split
  · exact follows_emit _
  · exact follows_refuse _ _

theorem Follows.materialize (ht : ∀ l, Follows (t l) i) :
    Follows (materialize t) (i >>= fun _ => pure .bool) := by
  refine .newGroup fun n => (ht _).bind fun _ => ?_
  refine (follows_emit _).before ((follows_emit _).before ?_)
  exact (follows_place _).before ((follows_emit _).before
    ((follows_place _).before (follows_pure ValueType.bool)))

theorem follows_pushLiteral (v : Literal) :
    Follows (pushLiteral line v) (.orRefuse line .untypedNull v.type?) := by
  cases v with
  | null => exact follows_refuse _ _
  | number | string | bool => exact (follows_emit _).before (follows_pure _)

theorem follows_pushVariable (x : String) : Follows (pushVariable line x) (.lookUp line x) :=
  (follows_onFrame _).bind fun _ => (follows_orRefuse _ _ _).bind fun v =>
    (follows_emit _).before (follows_pure v.type)

theorem Follows.assign (keep : Bool) (x : String) (hm : Follows m j) :
    Follows (assign keep line x m) (j >>= Judge.store line x) := by
  refine hm.bind fun τ => (follows_onFrame _).bind fun slot => (follows_orRefuse _ _ _).bind ?_
  intro k
  have hstore : Follows (do emit (.store τ k); return τ) (pure τ) :=
    (follows_emit _).before (follows_pure τ)
  cases keep with
  | true => exact (follows_emit .dup).before hstore
  | false => exact hstore

theorem Follows.applyUnary (op : UnaryOp) (hm : Follows m j) :
    Follows (applyUnary op line m)
      (j >>= fun τ => .orRefuse line (.invalidOperand op τ) (op.type? τ)) := by
  refine hm.bind fun τ => ?_
  cases op with
  | not =>
      cases τ with
      | bool => exact (follows_emit _).before ((follows_emit _).before (follows_pure _))
      | numeric | string => exact follows_refuse _ _
  | neg =>
      cases τ with
      | numeric => exact (follows_emit _).before (follows_pure _)
      | string | bool => exact follows_refuse _ _

theorem Follows.applyArith (op : ArithOp) (hm : Follows m j) (hm' : Follows m' j') :
    Follows (applyArith op line m m') (j >>= fun τ => j' >>= fun σ =>
      .orRefuse line (.typeMismatch (.arith op) τ σ)
        (if τ = σ then BinaryOp.type? (.arith op) τ else none)) := by
  refine hm.bind fun τ => hm'.bind fun σ => ?_
  by_cases h : τ = σ
  · simp only [if_pos h, BinaryOp.type?_arith]
    cases arithInstr? op τ with
    | some i => exact (follows_emit i).before (follows_pure τ)
    | none => exact follows_refuse _ _
  · simp only [if_neg h]
    exact follows_refuse _ _

theorem follows_branchUnless (c : Comparison) (τ : ValueType) :
    Follows (branchUnless c l τ) (pure ()) := by
  cases τ with
  | numeric | string => exact (follows_emit _).before (follows_emit _)
  | bool => exact follows_emit _

theorem Follows.testCompare (c : Comparison) (hm : Follows m j) (hm' : Follows m' j') :
    Follows (testCompare c line m m' l) (j >>= fun τ => j' >>= fun σ =>
      .orRefuse line (.typeMismatch (.compare c) τ σ) (if τ = σ then some () else none)) := by
  refine hm.bind fun τ => hm'.bind fun σ => ?_
  by_cases h : τ = σ
  · simp only [if_pos h]
    exact follows_branchUnless l c τ
  · simp only [if_neg h]
    exact follows_refuse _ _

theorem Follows.testLogical (op : LogicalOp) (ht : ∀ l, Follows (t l) i)
    (ht' : ∀ l, Follows (t' l) i') : Follows (testLogical op t t' l) (i >>= fun _ => i') := by
  cases op with
  | and => exact (ht l).bind fun _ => ht' l
  | or =>
      refine .newGroup fun n => (ht _).bind fun _ => ?_
      refine (follows_emit _).before ((follows_place _).before ?_)
      exact (ht' l).behind fun _ => follows_place _

end

/-! ## Both positions -/

variable {e : Expr}

theorem core_of_isPlain (h : e.isPlain = true) : e.core = e := by
  cases e with
  | grouping n a => cases h
  | _ => rfl

/-- Where the value comes first, the condition is judged by it. -/
theorem both_follow_of_value (hp : e.isPlain = true) (hv : Follows (value e) e.judge) :
    Follows (value e) e.judge ∧ ∀ l, Follows (test e l) e.judgeTest := by
  refine ⟨hv, fun l => ?_⟩
  rw [test_of_isPlain hp, Expr.judgeTest, core_of_isPlain hp]
  exact .routed l e.node (.testValue e.line l hv)

/-- Where the condition comes first, the value is a condition if there is one. -/
theorem both_follow_of_test (hc : e.isCondition = true) {i : Judge Unit}
    (hi : e.judge = i >>= fun _ => pure .bool) (ht : ∀ l, Follows (test e l) i) :
    Follows (value e) e.judge ∧ ∀ l, Follows (test e l) e.judgeTest := by
  -- the type is known to be that of a condition, so nothing is left to judge
  have htest : e.judgeTest = i := by
    have htrue : Judge.condition e.core.line .bool = pure () := rfl
    rw [Expr.judgeTest, hi, bind_assoc]
    simp only [pure_bind, htrue]
    exact bind_pure i
  refine ⟨?_, fun l => htest ▸ ht l⟩
  rw [value_of_isCondition hc, hi]
  exact .typed e.node (.materialize ht)

theorem compare_follows {a b : Expr} (ha : Follows (value a) a.judge)
    (hb : Follows (value b) b.judge) (n : Node) (c : Comparison) :
    Follows (value (.binary n a (.compare c) b)) (Expr.binary n a (.compare c) b).judge ∧
      ∀ l, Follows (test (.binary n a (.compare c) b) l)
        (Expr.binary n a (.compare c) b).judgeTest := by
  refine both_follow_of_test rfl (i := a.judge >>= fun τ => b.judge >>= fun σ =>
    .orRefuse a.line (.typeMismatch (.compare c) τ σ) (if τ = σ then some () else none)) ?_ ?_
  · rw [Expr.judge]
    simp only [bind_assoc]
    congr 1
    funext τ
    congr 1
    funext σ
    by_cases h : τ = σ
    · simp only [if_pos h]
      rfl
    · simp only [if_neg h]
      rfl
  · intro l
    rw [test]
    exact .routed l n (.testCompare a.line l c ha hb)

theorem logical_follows {a b : Expr} (ha : ∀ l, Follows (test a l) a.judgeTest)
    (hb : ∀ l, Follows (test b l) b.judgeTest) (n : Node) (op : LogicalOp) :
    Follows (value (.logical n a op b)) (Expr.logical n a op b).judge ∧
      ∀ l, Follows (test (.logical n a op b) l) (Expr.logical n a op b).judgeTest := by
  refine both_follow_of_test rfl (i := a.judgeTest >>= fun _ => b.judgeTest) ?_ ?_
  · rw [Expr.judge, Expr.judgeTest, Expr.judgeTest]
    simp only [bind_assoc]
  · intro l
    rw [test]
    exact .routed l n (.testLogical l op ha hb)

/-- **The pass follows the rules in both positions.** -/
theorem both_follow (e : Expr) :
    Follows (value e) e.judge ∧ ∀ l, Follows (test e l) e.judgeTest := by
  induction e with
  | literal n v =>
      refine both_follow_of_value rfl ?_
      rw [value, Expr.judge]
      exact .typed n (follows_pushLiteral n.line v)
  | var n x =>
      refine both_follow_of_value rfl ?_
      rw [value, Expr.judge]
      exact .typed n (follows_pushVariable n.line x)
  | unary n op a ih =>
      refine both_follow_of_value rfl ?_
      rw [value, Expr.judge]
      exact .typed n (.applyUnary a.line op ih.1)
  | binary n a op b iha ihb =>
      cases op with
      | arith op =>
          refine both_follow_of_value rfl ?_
          rw [value, Expr.judge]
          exact .typed n (.applyArith a.line op iha.1 ihb.1)
      | compare c => exact compare_follows iha.1 ihb.1 n c
  | logical n a op b iha ihb => exact logical_follows iha.2 ihb.2 n op
  | grouping n a ih =>
      refine ⟨?_, fun l => ?_⟩
      · rw [value, Expr.judge]
        exact .typed n ih.1
      · rw [test]
        exact .routed l n (ih.2 l)
  | assign n x a ih =>
      refine both_follow_of_value rfl ?_
      rw [value, Expr.judge]
      exact .typed n (.assign n.line true x ih.1)

/-- What the pass makes of a condition, from what it makes of the value. -/
theorem test_run (e : Expr) (l : Label) (g : Generator) :
    ((test e l).run g).2.frame = ((value e).run g).2.frame ∧
      ((test e l).run g).1 = match ((value e).run g).1 with
        | .ok τ =>
          if τ = .bool then .ok () else .error ⟨.nonBooleanCondition τ, some e.core.line⟩
        | .error err => .error err := by
  have hv := (both_follow e).1 g
  have ht := (both_follow e).2 l g
  rw [Expr.judgeTest, run_bind, hv] at ht
  rcases hr : (value e).run g with ⟨err | τ, g'⟩
  · rw [hr] at ht
    exact ⟨(congrArg Prod.snd ht).symm, (congrArg Prod.fst ht).symm⟩
  · rw [hr] at ht
    dsimp only at ht
    rw [Judge.run_condition] at ht
    exact ⟨(congrArg Prod.snd ht).symm, (congrArg Prod.fst ht).symm⟩

/--
**Conditions and values are accepted and refused alike.** From any state, the code of an
expression as a condition can be given if and only if it can be given as a value, and
the value is a boolean. Otherwise it is refused: for the type of the value, if there is one,
and else with the very error of the value. The variables are left the same.
-/
theorem test_agrees_value (g : Generator) (e : Expr) (l : Label) :
    (((test e l).run g).1 = .ok () ↔ ((value e).run g).1 = .ok .bool) ∧
    ((test e l).run g).2.frame = ((value e).run g).2.frame ∧
    (∀ τ, ((value e).run g).1 = .ok τ → τ ≠ .bool →
      ((test e l).run g).1 = .error ⟨.nonBooleanCondition τ, some e.core.line⟩) ∧
    ∀ err, ((value e).run g).1 = .error err → ((test e l).run g).1 = .error err := by
  obtain ⟨hframe, htest⟩ := test_run e l g
  rw [htest]
  -- all else is a case of `test_run`
  refine ⟨?_, hframe, fun τ hτ hne => by rw [hτ]; exact if_neg hne, fun err herr => by rw [herr]⟩
  rcases ((value e).run g).1 with err | τ
  · simp
  · by_cases hτ : τ = .bool <;> simp [hτ]

end Gen

end Dam
