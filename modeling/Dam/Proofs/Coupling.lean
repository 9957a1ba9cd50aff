import Dam.Proofs.Emission

/-!
# Two passes side by side

Two programs that differ in something the pass does not look at are gone through by the
same steps. To show it, two runs of the pass are kept in step: a `Coupling` says how their
states correspond, and its laws say that a step which both take keeps the states in
correspondence. What holds of single steps holds of the pieces that code is made of, and then
of programs, by the recursion on trees that the coupling was made for.

The steps of the two passes need not be the same. They may be for different names and at
different lines, as far as the coupling lets names and lines correspond.
-/

namespace Dam

/-- The variable that a fault is about. -/
def CodeFault.name? : CodeFault → Option String
  | undefinedVariable x => some x
  | _ => none

/--
How the states, names, lines and errors of two passes correspond. Every step that the pass
is made of keeps corresponding states so.
-/
structure Coupling where
  States : Generator → Generator → Prop
  Names : String → String → Prop
  Lines : Nat → Nat → Prop
  Errors : CodeError → CodeError → Prop
  push : ∀ {g g'}, States g g' → ∀ x, States (g.push x) (g'.push x)
  note : ∀ {g g'}, States g g' → ∀ id τ, States (g.note id τ) (g'.note id τ)
  aim : ∀ {g g'}, States g g' → ∀ id t, States (g.aim id t) (g'.aim id t)
  /-- The next group of labels has the same number in both. -/
  group : ∀ {g g'}, States g g' → g'.nextGroup = g.nextGroup
  next : ∀ {g g'}, States g g' → States { g with nextGroup := g.nextGroup + 1 }
    { g' with nextGroup := g'.nextGroup + 1 }
  lookUp : ∀ {g g' x x'}, States g g' → Names x x' →
    g'.frame.table[x']? = g.frame.table[x]?
  assign : ∀ {g g' x x'}, States g g' → Names x x' → ∀ τ,
    (g'.frame.assign x' τ).1 = (g.frame.assign x τ).1 ∧
      States { g with frame := (g.frame.assign x τ).2 }
        { g' with frame := (g'.frame.assign x' τ).2 }
  define : ∀ {g g' x x'}, States g g' → Names x x' → ∀ τ,
    (g'.frame.define x' τ).1 = (g.frame.define x τ).1 ∧
      States { g with frame := (g.frame.define x τ).2 }
        { g' with frame := (g'.frame.define x' τ).2 }
  useScanner : ∀ {g g'}, States g g' →
    g'.frame.useScanner.1 = g.frame.useScanner.1 ∧
      States { g with frame := g.frame.useScanner.2 } { g' with frame := g'.frame.useScanner.2 }
  /-- Faults that are about no variable are the same. -/
  fault : ∀ {line line'}, Lines line line' → ∀ {fault : CodeFault}, fault.name? = none →
    Errors ⟨fault, some line⟩ ⟨fault, some line'⟩
  undefined : ∀ {line line' x x'}, Lines line line' → Names x x' →
    Errors ⟨.undefinedVariable x, some line⟩ ⟨.undefinedVariable x', some line'⟩

namespace Coupling

variable {C : Coupling} {α β : Type}

/-- Two runs end alike: with one result or with corresponding errors, in corresponding states. -/
inductive Ends (C : Coupling) :
    Except CodeError α × Generator → Except CodeError α × Generator → Prop
  | ok {a : α} {g g' : Generator} : C.States g g' → Ends C (.ok a, g) (.ok a, g')
  | error {e e' : CodeError} {g g' : Generator} : C.Errors e e' → C.States g g' →
      Ends C (.error e, g) (.error e', g')

/-- From corresponding states, the steps `m` and `m'` end alike. -/
def Links (C : Coupling) (m m' : Gen α) : Prop :=
  ∀ g g', C.States g g' → C.Ends (m.run g) (m'.run g')

/-! ## Steps -/

theorem pure (a : α) : C.Links (Pure.pure a) (Pure.pure a) := fun _ _ h => .ok h

theorem Links.bind {m m' : Gen α} {k k' : α → Gen β} (hm : C.Links m m')
    (hk : ∀ a, C.Links (k a) (k' a)) : C.Links (m >>= k) (m' >>= k') := by
  intro g g' h
  rw [run_bind, run_bind]
  have hfirst := hm g g' h
  generalize m.run g = r at hfirst ⊢
  generalize m'.run g' = r' at hfirst ⊢
  -- an error of the first step is the error of both
  cases hfirst with
  | ok hs => exact hk _ _ _ hs
  | error he hs => exact .error he hs

theorem emit (i : Instr) : C.Links (Gen.emit i) (Gen.emit i) := fun _ _ h => .ok (C.push h _)

theorem place (l : Label) : C.Links (Gen.place l) (Gen.place l) := fun _ _ h => .ok (C.push h _)

theorem record (id : Nat) (τ : ValueType) : C.Links (Gen.record id τ) (Gen.record id τ) :=
  fun _ _ h => .ok (C.note h id τ)

theorem register (id : Nat) (t : Label) : C.Links (Gen.register id t) (Gen.register id t) :=
  fun _ _ h => .ok (C.aim h id t)

/-- What follows may use the number, which is the same. -/
theorem Links.newGroup {k k' : Nat → Gen β} (hk : ∀ n, C.Links (k n) (k' n)) :
    C.Links (Gen.newGroup >>= k) (Gen.newGroup >>= k') := by
  intro g g' h
  have hnext := hk g.nextGroup _ _ (C.next h)
  have hrun {k : Nat → Gen β} (g : Generator) : (Gen.newGroup >>= k).run g =
      (k g.nextGroup).run { g with nextGroup := g.nextGroup + 1 } := rfl
  rw [hrun, hrun, C.group h]
  rwa [C.group h] at hnext

theorem onFrame {f f' : Frame → α × Frame}
    (hf : ∀ g g', C.States g g' → (f' g'.frame).1 = (f g.frame).1 ∧
      C.States { g with frame := (f g.frame).2 } { g' with frame := (f' g'.frame).2 }) :
    C.Links (Gen.onFrame f) (Gen.onFrame f') := by
  intro g g' h
  obtain ⟨hresult, hs⟩ := hf g g' h
  have hrun (f : Frame → α × Frame) (g : Generator) : (Gen.onFrame f).run g =
      (.ok (f g.frame).1, { g with frame := (f g.frame).2 }) := rfl
  rw [hrun, hrun, hresult]
  exact .ok hs

theorem orRefuse {line line' : Nat} {fault fault' : CodeFault}
    (he : C.Errors ⟨fault, some line⟩ ⟨fault', some line'⟩) (o : Option α) :
    C.Links (Gen.orRefuse line fault o) (Gen.orRefuse line' fault' o) := by
  intro g g' h
  cases o with
  | none => exact .error he h
  | some a => exact .ok h

theorem refuse {line line' : Nat} {fault : CodeFault} (hline : C.Lines line line')
    (hfault : fault.name? = none) :
    C.Links (Gen.refuse line fault : Gen α) (Gen.refuse line' fault) :=
  fun _ _ h => .error (C.fault hline hfault) h

/-! ## Pieces of expressions -/

section

variable {m m' k k' : Gen ValueType} {t t' u u' : Label → Gen Unit} {line line' : Nat}
  {x x' : String} {n n' : Node}

theorem Links.typed (hm : C.Links m m') (hid : n'.id = n.id) :
    C.Links (Gen.typed n m) (Gen.typed n' m') := by
  unfold Gen.typed
  rw [hid]
  exact hm.bind fun τ => (record _ τ).bind fun _ => pure τ

theorem Links.routed {b b' : Gen Unit} (hb : C.Links b b') (hid : n'.id = n.id) (l : Label) :
    C.Links (Gen.routed n l b) (Gen.routed n' l b') := by
  unfold Gen.routed
  rw [hid]
  exact (register _ l).bind fun _ => hb.bind fun _ => record _ _

theorem Links.testValue (hm : C.Links m m') (hline : C.Lines line line') (l : Label) :
    C.Links (Gen.testValue line l m) (Gen.testValue line' l m') := by
  refine hm.bind fun τ => ?_
  split
  · exact emit _
  · exact refuse hline rfl

theorem materialize (ht : ∀ l, C.Links (t l) (t' l)) :
    C.Links (Gen.materialize t) (Gen.materialize t') := by
  refine .newGroup fun n => (ht _).bind fun _ => ?_
  exact (emit _).bind fun _ => (emit _).bind fun _ => (place _).bind fun _ =>
    (emit _).bind fun _ => (place _).bind fun _ => pure _

theorem pushLiteral (hline : C.Lines line line') (v : Literal) :
    C.Links (Gen.pushLiteral line v) (Gen.pushLiteral line' v) := by
  cases v with
  | null => exact refuse hline rfl
  | number | string | bool => exact (emit _).bind fun _ => pure _

theorem pushVariable (hline : C.Lines line line') (hx : C.Names x x') :
    C.Links (Gen.pushVariable line x) (Gen.pushVariable line' x') := by
  have hfound : C.Links (Gen.onFrame fun f => (f.table[x]?, f))
      (Gen.onFrame fun f => (f.table[x']?, f)) := onFrame fun g g' h => ⟨C.lookUp h hx, h⟩
  refine hfound.bind fun found => (orRefuse (C.undefined hline hx) found).bind fun v => ?_
  exact (emit _).bind fun _ => pure _

theorem Links.assign (hm : C.Links m m') (hline : C.Lines line line') (hx : C.Names x x')
    (keep : Bool) : C.Links (Gen.assign keep line x m) (Gen.assign keep line' x' m') := by
  refine hm.bind fun τ => ?_
  refine (onFrame fun g g' h => C.assign h hx τ).bind fun slot => ?_
  refine (orRefuse (C.undefined hline hx) slot).bind fun k => ?_
  have hstore : C.Links (do Gen.emit (.store τ k); return τ) (do Gen.emit (.store τ k); return τ) :=
    (emit _).bind fun _ => pure τ
  cases keep with
  | true => exact (emit .dup).bind fun _ => hstore
  | false => exact hstore

theorem Links.applyUnary (hm : C.Links m m') (hline : C.Lines line line') (op : UnaryOp) :
    C.Links (Gen.applyUnary op line m) (Gen.applyUnary op line' m') := by
  refine hm.bind fun τ => ?_
  cases op with
  | not =>
      cases τ with
      | bool => exact (emit _).bind fun _ => (emit _).bind fun _ => pure _
      | numeric | string => exact refuse hline rfl
  | neg =>
      cases τ with
      | numeric => exact (emit _).bind fun _ => pure _
      | string | bool => exact refuse hline rfl

theorem Links.applyArith (hm : C.Links m m') (hk : C.Links k k') (hline : C.Lines line line')
    (op : ArithOp) : C.Links (Gen.applyArith op line m k) (Gen.applyArith op line' m' k') := by
  refine hm.bind fun τ => hk.bind fun σ => ?_
  split
  · exact (emit _).bind fun _ => pure τ
  · exact refuse hline rfl

theorem branchUnless (c : Comparison) (l : Label) (τ : ValueType) :
    C.Links (Gen.branchUnless c l τ) (Gen.branchUnless c l τ) := by
  cases τ with
  | numeric | string => exact (emit _).bind fun _ => emit _
  | bool => exact emit _

theorem Links.testCompare (hm : C.Links m m') (hk : C.Links k k') (hline : C.Lines line line')
    (c : Comparison) (l : Label) :
    C.Links (Gen.testCompare c line m k l) (Gen.testCompare c line' m' k' l) := by
  refine hm.bind fun τ => hk.bind fun σ => ?_
  split
  · exact branchUnless c l τ
  · exact refuse hline rfl

theorem testLogical (ht : ∀ l, C.Links (t l) (t' l)) (hu : ∀ l, C.Links (u l) (u' l))
    (op : LogicalOp) (l : Label) :
    C.Links (Gen.testLogical op t u l) (Gen.testLogical op t' u' l) := by
  cases op with
  | and => exact (ht l).bind fun _ => hu l
  | or =>
      refine .newGroup fun n => (ht _).bind fun _ => (emit _).bind fun _ => ?_
      exact (place _).bind fun _ => (hu l).bind fun _ => place _

/-! ## Expressions -/

/-- The nodes have the same id, at corresponding lines. -/
def Nodes (C : Coupling) (n n' : Node) : Prop := n'.id = n.id ∧ C.Lines n.line n'.line

/-- The passes over two expressions end alike, in both positions. -/
def Both (C : Coupling) (e e' : Expr) : Prop :=
  C.Links (Gen.value e) (Gen.value e') ∧ ∀ l, C.Links (Gen.test e l) (Gen.test e' l)

variable {a a' e e' : Expr}

/-- Where the value comes first, the condition follows it. -/
theorem both_of_value (hp : e.isPlain = true) (hp' : e'.isPlain = true)
    (hn : C.Nodes e.node e'.node) (hv : C.Links (Gen.value e) (Gen.value e')) : C.Both e e' := by
  refine ⟨hv, fun l => ?_⟩
  rw [Gen.test_of_isPlain hp, Gen.test_of_isPlain hp']
  exact (hv.testValue hn.2 l).routed hn.1 l

/-- Where the condition comes first, the value follows it. -/
theorem both_of_test (hc : e.isCondition = true) (hc' : e'.isCondition = true)
    (hn : C.Nodes e.node e'.node) (ht : ∀ l, C.Links (Gen.test e l) (Gen.test e' l)) :
    C.Both e e' := by
  refine ⟨?_, ht⟩
  rw [Gen.value_of_isCondition hc, Gen.value_of_isCondition hc']
  exact (materialize ht).typed hn.1

theorem both_literal (hn : C.Nodes n n') (v : Literal) :
    C.Both (.literal n v) (.literal n' v) := by
  refine both_of_value rfl rfl hn ?_
  rw [Gen.value, Gen.value]
  exact (pushLiteral hn.2 v).typed hn.1

theorem both_var (hn : C.Nodes n n') (hx : C.Names x x') : C.Both (.var n x) (.var n' x') := by
  refine both_of_value rfl rfl hn ?_
  rw [Gen.value, Gen.value]
  exact (pushVariable hn.2 hx).typed hn.1

theorem Both.unary (ha : C.Both a a') (hn : C.Nodes n n') (hline : C.Lines a.line a'.line)
    (op : UnaryOp) : C.Both (.unary n op a) (.unary n' op a') := by
  refine both_of_value rfl rfl hn ?_
  rw [Gen.value, Gen.value]
  exact (ha.1.applyUnary hline op).typed hn.1

theorem Both.binary (ha : C.Both a a') (he : C.Both e e') (hn : C.Nodes n n')
    (hline : C.Lines a.line a'.line) (op : BinaryOp) :
    C.Both (.binary n a op e) (.binary n' a' op e') := by
  cases op with
  | arith op =>
      refine both_of_value rfl rfl hn ?_
      rw [Gen.value, Gen.value]
      exact (ha.1.applyArith he.1 hline op).typed hn.1
  | compare c =>
      refine both_of_test rfl rfl hn fun l => ?_
      rw [Gen.test, Gen.test]
      exact (ha.1.testCompare he.1 hline c l).routed hn.1 l

theorem Both.logical (ha : C.Both a a') (he : C.Both e e') (hn : C.Nodes n n') (op : LogicalOp) :
    C.Both (.logical n a op e) (.logical n' a' op e') := by
  refine both_of_test rfl rfl hn fun l => ?_
  rw [Gen.test, Gen.test]
  exact (testLogical ha.2 he.2 op l).routed hn.1 l

theorem Both.grouping (ha : C.Both a a') (hn : C.Nodes n n') :
    C.Both (.grouping n a) (.grouping n' a') := by
  refine ⟨?_, fun l => ?_⟩
  · rw [Gen.value, Gen.value]
    exact ha.1.typed hn.1
  · rw [Gen.test, Gen.test]
    exact (ha.2 l).routed hn.1 l

theorem Both.assign (ha : C.Both a a') (hn : C.Nodes n n') (hx : C.Names x x') :
    C.Both (.assign n x a) (.assign n' x' a') := by
  refine both_of_value rfl rfl hn ?_
  rw [Gen.value, Gen.value]
  exact (ha.1.assign hn.2 hx true).typed hn.1

/-! ## Expressions whose values are not used -/

theorem Both.discard_assign (ha : C.Both a a') (hn : C.Nodes n n') (hx : C.Names x x') :
    C.Links (Gen.discard (.assign n x a)) (Gen.discard (.assign n' x' a')) := by
  have hstore := (ha.1.assign hn.2 hx false).typed hn.1
  exact hstore.bind fun _ => pure ()

theorem Both.discard (he : C.Both e e') (hp : e.isAssign = false) (hp' : e'.isAssign = false) :
    C.Links (Gen.discard e) (Gen.discard e') := by
  have hdiscard {e : Expr} (h : e.isAssign = false) :
      Gen.discard e = (do let _ ← Gen.value e; Gen.emit .pop) := by
    cases e with
    | assign n x a => cases h
    | _ => rfl
  rw [hdiscard hp, hdiscard hp']
  exact he.1.bind fun _ => emit .pop

/-! ## Pieces of statements -/

theorem Links.declare (hm : C.Links m m') (hline : C.Lines line line') (hx : C.Names x x') :
    C.Links (Gen.declare line x m) (Gen.declare line' x' m') := by
  refine hm.bind fun τ => (onFrame fun g g' h => C.define h hx τ).bind fun slot => ?_
  exact (orRefuse (C.fault hline rfl) slot).bind fun k => emit _

theorem Links.print (hm : C.Links m m') : C.Links (Gen.print m) (Gen.print m') :=
  (emit _).bind fun _ => hm.bind fun _ => emit _

theorem read (hline : C.Lines line line') (hx : C.Names x x') :
    C.Links (Gen.read line x) (Gen.read line' x') := by
  have hslot : C.Links (Gen.onFrame fun f => (f.slot? x, f))
      (Gen.onFrame fun f => (f.slot? x', f)) := by
    refine onFrame fun g g' h => ⟨?_, h⟩
    exact congrArg (Option.map Variable.slot) (C.lookUp h hx)
  refine hslot.bind fun slot => (orRefuse (C.undefined hline hx) slot).bind fun _ => ?_
  refine (onFrame fun g g' h => C.useScanner h).bind fun scanner => ?_
  refine (orRefuse (C.fault hline rfl) scanner).bind fun k => ?_
  refine (emit _).bind fun _ => (emit _).bind fun _ => ?_
  refine (onFrame fun g g' h => C.assign h hx .string).bind fun slot => ?_
  exact (orRefuse (C.undefined hline hx) slot).bind fun _ => emit _

variable {b b' d d' : Gen Unit}

theorem ifThen (ht : ∀ l, C.Links (t l) (t' l)) (hb : C.Links b b') :
    C.Links (Gen.ifThen t b) (Gen.ifThen t' b') := by
  refine .newGroup fun n => (ht _).bind fun _ => (place _).bind fun _ => ?_
  exact hb.bind fun _ => place _

theorem ifElse (ht : ∀ l, C.Links (t l) (t' l)) (hb : C.Links b b') (hd : C.Links d d') :
    C.Links (Gen.ifElse t b d) (Gen.ifElse t' b' d') := by
  refine .newGroup fun n => (ht _).bind fun _ => (place _).bind fun _ => hb.bind fun _ => ?_
  exact (emit _).bind fun _ => (place _).bind fun _ => hd.bind fun _ => place _

theorem whileDo (ht : ∀ l, C.Links (t l) (t' l)) (hb : C.Links b b') :
    C.Links (Gen.whileDo t b) (Gen.whileDo t' b') := by
  refine .newGroup fun n => (place _).bind fun _ => (ht _).bind fun _ => hb.bind fun _ => ?_
  exact (emit _).bind fun _ => place _

end

end Coupling

end Dam
