import Dam.Proofs.ReachingStores

/-!
# The order of evaluation

Much of the generated code is about control: labels, jumps, the `0` and `1` of a condition
that is wanted as a value. The rest makes values, fetches and stores them, combines them
and hands them to the outside. These instructions are the *evaluations*.

A condition in value position is handed over to the condition generator, which hands
other expressions back, so one node may be looked at several times. Still it is evaluated
once. `Stmt.walk` goes over the program once, from left to right, parts in front of the
whole, and knows nothing of positions, labels and conditions. The main statement,
`evaluations_of_generate`, is that the evaluations in the code are those of the walk, in its
order: nothing is missing, twice or in another place, also in code that no run reaches.
-/

namespace Dam

/-! ## Evaluations in code -/

/-- Whether an instruction makes, fetches, stores or combines values, or calls a method on them. -/
def Instr.isEvaluation : Instr → Bool
  | ldcFloat _ | ldcString _ | load _ _ | store _ _ | arith _ | fneg | invokeVirtual _ => true
  | _ => false

namespace Code

/-- The evaluations of the code, in order. -/
def evaluations (c : List Item) : List Instr := (instrs c).filter Instr.isEvaluation

@[simp] theorem evaluations_nil : evaluations [] = [] := rfl

@[simp] theorem evaluations_append (c c' : List Item) :
    evaluations (c ++ c') = evaluations c ++ evaluations c' := by
  simp [evaluations, instrs]

@[simp] theorem evaluations_label (l : Label) (c : List Item) :
    evaluations (.label l :: c) = evaluations c := rfl

@[simp] theorem evaluations_op (i : Instr) (c : List Item) :
    evaluations (.op i :: c) =
      if i.isEvaluation then i :: evaluations c else evaluations c := by
  simp [evaluations, instrs, Item.instr?, List.filter_cons]

end Code

/-! ## The walk over a program -/

/-- The evaluation of a constant. The two truth values are not made by an evaluation. -/
def Literal.walk : Literal → List Instr
  | number x => [.ldcFloat x]
  | string s => [.ldcString s]
  | bool _ | null => []

/-- The evaluation that applies an arithmetic operator to values of a type. -/
def ArithOp.evaluation (op : ArithOp) : ValueType → Instr
  | .string => .invokeVirtual Gen.concat
  | _ => .arith op

/-- The evaluation in a comparison of values of a type: numbers and truth values need none. -/
def comparisonWalk : ValueType → List Instr
  | .string => [.invokeVirtual Gen.compareTo]
  | _ => []

/--
The evaluations of an expression, where the variables have the given slots and, in front of the
expression, the types `Γ`. Operands come from left to right, and in front of their operator.
-/
def Expr.walk (slot : String → Nat) (Γ : TypeEnv) : Expr → List Instr
  | literal _ v => v.walk
  | var n x => [.load ((var n x).infer Γ).1 (slot x)]
  | unary _ .not a => a.walk slot Γ
  | unary _ .neg a => a.walk slot Γ ++ [.fneg]
  | binary _ l (.arith op) r =>
    l.walk slot Γ ++ r.walk slot (l.infer Γ).2 ++ [op.evaluation (l.infer Γ).1]
  | binary _ l (.compare _) r =>
    l.walk slot Γ ++ r.walk slot (l.infer Γ).2 ++ comparisonWalk (l.infer Γ).1
  | logical _ l _ r => l.walk slot Γ ++ r.walk slot (l.infer Γ).2
  | grouping _ a => a.walk slot Γ
  | assign _ x a => a.walk slot Γ ++ [.store (a.infer Γ).1 (slot x)]

namespace Stmt

mutual

/-- The evaluations of a statement: a condition comes in front of what it decides about. -/
def walk (slot : String → Nat) (Γ : TypeEnv) : Stmt → List Instr
  | declare _ x e => e.walk slot Γ ++ [.store (e.infer Γ).1 (slot x)]
  | print _ e => e.walk slot Γ ++ [.invokeVirtual (Gen.println (e.infer Γ).1)]
  | read _ x => [.invokeVirtual Gen.nextLine, .store .string (slot x)]
  | ifThen _ e yes => e.walk slot Γ ++ yes.walk slot (e.infer Γ).2
  | ifElse _ e yes no =>
    e.walk slot Γ ++ yes.walk slot (e.infer Γ).2 ++ no.walk slot (yes.infer (e.infer Γ).2)
  | whileDo _ e body => e.walk slot Γ ++ body.walk slot (e.infer Γ).2
  | block _ ss => walkAll slot Γ ss
  | expression _ e => e.walk slot Γ

/-- The evaluations of statements, one after the other. -/
def walkAll (slot : String → Nat) (Γ : TypeEnv) : List Stmt → List Instr
  | [] => []
  | st :: sts => st.walk slot Γ ++ walkAll slot (st.infer Γ) sts

end

end Stmt

/-- The evaluations of a program; no variable has a type in front of it. -/
def Program.walk (p : Program) (slot : String → Nat) : List Instr :=
  Stmt.walkAll slot (fun _ => none) p.stmts

/-! ## The code follows the walk -/

theorem Literal.evaluations_push {v : Literal} {i : Instr} {τ : ValueType}
    (h : v.push? = some (i, τ)) : Code.evaluations [.op i] = v.walk := by
  cases v with
  | null => cases h
  | number x => cases h; rfl
  | string s => cases h; rfl
  | bool b => cases h; rfl

theorem Gen.evaluations_arithInstr {op : ArithOp} {τ : ValueType} {i : Instr}
    (h : Gen.arithInstr? op τ = some i) : Code.evaluations [.op i] = [op.evaluation τ] := by
  rcases Gen.arithInstr?_cases h with ⟨rfl, rfl⟩ | ⟨rfl, rfl⟩
  · rfl
  · rfl

theorem Comparison.evaluations_branch (k : Comparison) (t : Label) (τ : ValueType) :
    Code.evaluations (k.branch t τ) = comparisonWalk τ := by
  cases τ with
  | numeric => cases k <;> rfl
  | string => rfl
  | bool => rfl

/-- A slot that was given out is the one the frame has in the end. -/
theorem Frame.Keeps.slotOf {f G : Frame} (h : f.Keeps G) {x : String} {k : Nat}
    (hk : f.slot? x = some k) : (G.slot? x).getD 0 = k := by
  rw [h.slot x k hk]
  rfl

/-- The code of an expression evaluates what the walk does, in either position. -/
theorem ExprCode.evaluations {e : Expr} {pos : ExprPosition} {s s' : Scope}
    {ts : List (Nat × ValueType)} {c : List Item} (h : ExprCode e pos s s' ts c) {G : Frame}
    (hG : s'.frame.Keeps G) :
    Code.evaluations c = e.walk (fun x => (G.slot? x).getD 0) s.frame.type? := by
  -- what a part evaluates is known from the frame behind it, which the frames to come keep
  induction h with
  | literal hv => exact Literal.evaluations_push hv
  | @var n x v s hx =>
      have htype : ((Expr.var n x).infer s.frame.type?).1 = v.type :=
        congrArg Prod.fst (ExprCode.var (n := n) hx).infer
      have hslot : (G.slot? x).getD 0 = v.slot := hG.slotOf (Frame.table_eq_some.mp hx).2
      rw [Expr.walk, htype, hslot]
      rfl
  | not _ ih =>
      rw [Expr.walk, Code.evaluations_append, ih hG]
      exact List.append_nil _
  | neg _ ih =>
      rw [Expr.walk, Code.evaluations_append, ih hG]
      rfl
  | arith hl hr hi ih₁ ih₂ =>
      have hfirst := ih₁ (hr.frameGrows.keeps.trans hG)
      rw [Expr.walk, hl.infer, Code.evaluations_append, Code.evaluations_append, hfirst, ih₂ hG,
        Gen.evaluations_arithInstr hi]
      rfl
  | materialize _ _ ih =>
      rw [Code.evaluations_append, ih hG]
      exact List.append_nil _
  | grouping _ ih =>
      rw [Expr.walk]
      exact ih hG
  | @assign n x a τ slot s s₁ f ts c ha hf ih =>
      have hstores := Frame.stores_of_assign hf
      have hslot : (G.slot? x).getD 0 = slot := hG.slotOf hstores.slot
      rw [Expr.walk, ha.infer, Code.evaluations_append, ih (hstores.keeps.trans hG), hslot]
      rfl
  | @compare n l r k τ t s s₁ s₂ ts₁ ts₂ c₁ c₂ hl hr ih₁ ih₂ =>
      have hfirst := ih₁ (hr.frameGrows.keeps.trans hG)
      rw [Expr.walk, hl.infer, Code.evaluations_append, Code.evaluations_append, hfirst, ih₂ hG,
        k.evaluations_branch]
      rfl
  | and hl hr ih₁ ih₂ =>
      have hfirst := ih₁ (hr.frameGrows.keeps.trans hG)
      rw [Expr.walk, hl.infer, Code.evaluations_append, hfirst, ih₂ hG]
  | or hl hr ih₁ ih₂ =>
      have hfirst := ih₁ (hr.frameGrows.keeps.trans hG)
      rw [Scope.next_frame] at hfirst
      rw [Expr.walk, hl.infer_next]
      simp [Instr.isEvaluation, hfirst, ih₂ hG]
  | groupingTest _ ih =>
      rw [Expr.walk]
      exact ih hG
  | branch _ _ ih =>
      rw [Code.evaluations_append, ih hG]
      exact List.append_nil _

/-- The code of a statement evaluates what the walk does. -/
theorem StmtCode.evaluations {st : Stmt} {s s' : Scope} {ts : List (Nat × ValueType)}
    {c : List Item} (h : StmtCode st s s' ts c) {G : Frame} (hG : s'.frame.Keeps G) :
    Code.evaluations c = st.walk (fun x => (G.slot? x).getD 0) s.frame.type? := by
  induction h with
  | @declare sp x e τ slot s s₁ f ts c he hf =>
      have hstores := Frame.stores_of_define hf
      have hslot : (G.slot? x).getD 0 = slot := hG.slotOf hstores.slot
      rw [Stmt.walk, he.infer, Code.evaluations_append, he.evaluations (hstores.keeps.trans hG),
        hslot]
      rfl
  | print he =>
      rw [Stmt.walk, he.infer]
      simp [Instr.isEvaluation, Gen.systemOut, he.evaluations hG, ExprPosition.type]
  | @read sp x scanner slot s f f' hs hf =>
      have hslot : (G.slot? x).getD 0 = slot := hG.slotOf (Frame.stores_of_assign hf).slot
      rw [Stmt.walk, hslot]
      rfl
  | ifThen he hyes ih =>
      have hfirst := he.evaluations (hyes.frameGrows.keeps.trans hG)
      rw [Scope.next_frame] at hfirst
      rw [Stmt.walk, he.infer_next]
      simp [hfirst, ih hG]
  | ifElse he hyes hno ih₁ ih₂ =>
      have hfirst := he.evaluations (hyes.frameGrows.keeps.trans (hno.frameGrows.keeps.trans hG))
      have hsecond := ih₁ (hno.frameGrows.keeps.trans hG)
      rw [Scope.next_frame] at hfirst
      rw [Stmt.walk, he.infer_next, hyes.infer]
      simp [Instr.isEvaluation, hfirst, hsecond, ih₂ hG]
  | whileDo he hbody ih =>
      have hfirst := he.evaluations (hbody.frameGrows.keeps.trans hG)
      rw [Scope.next_frame] at hfirst
      rw [Stmt.walk, he.infer_next]
      simp [Instr.isEvaluation, hfirst, ih hG]
  | nil => rw [Stmt.walk, Stmt.walkAll, Code.evaluations_nil]
  | cons hst hsts ih₁ ih₂ =>
      have hfirst := ih₁ (hsts.frameGrows.keeps.trans hG)
      have hrest := ih₂ hG
      rw [Stmt.walk] at hrest
      rw [Stmt.walk, Stmt.walkAll, hst.infer, Code.evaluations_append, hfirst, hrest]
  | @store sp n x a τ slot s s₁ f ts c ha hf =>
      have hstores := Frame.stores_of_assign hf
      have hslot : (G.slot? x).getD 0 = slot := hG.slotOf hstores.slot
      rw [Stmt.walk, Expr.walk, ha.infer, Code.evaluations_append,
        ha.evaluations (hstores.keeps.trans hG), hslot]
      rfl
  | drop _ he =>
      rw [Stmt.walk, Code.evaluations_append, he.evaluations hG]
      exact List.append_nil _

/--
**Everything is evaluated once, and in order.** The evaluations in the code of a program are those
of one walk over its tree, with each variable at the slot that it has in the frame.
-/
theorem Generator.evaluations_of_generate {p : Program} {g : Generator}
    (h : empty.generate p = (.ok (), g)) :
    Code.evaluations g.items = p.walk fun x => (g.frame.slot? x).getD 0 := by
  obtain ⟨ts, hcode, _⟩ := generate_code h
  have hwalk := hcode.evaluations (Frame.Keeps.refl g.frame)
  have hstart : Frame.type? Scope.empty.frame = fun _ => none := by
    funext x
    rfl
  rw [hstart, Stmt.walk] at hwalk
  exact hwalk

/-- A program with both kinds of statements in which conditions decide, and a comparison of
strings that is wanted as a value. -/
theorem Generator.evaluations_of_generate_greeting :
    ∃ g, empty.generate .greeting = (.ok (), g) ∧
      Code.evaluations g.items = Program.greeting.walk (fun x => (g.frame.slot? x).getD 0) ∧
      Instr.invokeVirtual Gen.compareTo ∈ Code.evaluations g.items := by
  obtain ⟨a, ha⟩ := Program.greeting_assembles
  obtain ⟨g, hg, _⟩ := Program.assemble_eq_ok.mp ha
  have hwalk := evaluations_of_generate hg
  refine ⟨g, hg, hwalk, ?_⟩
  rw [hwalk]
  simp [Program.walk, Program.greeting, Stmt.walkAll, Stmt.walk, Expr.walk, Literal.walk,
    Expr.infer, Stmt.infer, comparisonWalk, Function.update]

end Dam
