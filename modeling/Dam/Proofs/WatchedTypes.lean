import Dam.Proofs.RecordedTypes

/-!
# Remembering a type twice

The pass remembers many types twice: that of a condition, when it is gone through as a
condition and again as a value. It does so blindly, and what it remembers last is what is
found. If the ids of a program are distinct, then nothing is ever replaced by something
else. This is to hold of every single step, also in a pass that fails later on.

To see the steps, the pass is written once more with the way to remember a type as a
parameter (`stmtsWith`). With `record` it is the pass (`stmtsWith_record`). With `watch`
it stops, with an error of our choice, as soon as the type of a node would be replaced by
another. The result is that the watched pass is the same as the pass.
-/

namespace Dam.Gen

/-! ## The pass with another way to remember types -/

section

variable (remember : Nat → ValueType → Gen Unit)

/-- `body` as the code of a node in value position. -/
def typedWith (node : Node) (body : Gen ValueType) : Gen ValueType := do
  let type ← body
  remember node.id type
  return type

/-- `body` as the code of a node in condition position. -/
def routedWith (node : Node) (target : Label) (body : Gen Unit) : Gen Unit := do
  register node.id target
  body
  remember node.id .bool

mutual

/-- The code of an expression in value position. -/
def valueWith : Expr → Gen ValueType
  | .literal n l => typedWith remember n (pushLiteral n.line l)
  | .var n x => typedWith remember n (pushVariable n.line x)
  | .unary n op a => typedWith remember n (applyUnary op a.line (valueWith a))
  | .binary n l (.arith op) r =>
    typedWith remember n (applyArith op l.line (valueWith l) (valueWith r))
  | .binary n l (.compare c) r =>
    typedWith remember n (materialize fun t =>
      routedWith remember n t (testCompare c l.line (valueWith l) (valueWith r) t))
  | .logical n l op r =>
    typedWith remember n (materialize fun t =>
      routedWith remember n t (testLogical op (testWith l) (testWith r) t))
  | .grouping n a => typedWith remember n (valueWith a)
  | .assign n x a => typedWith remember n (assign true n.line x (valueWith a))

/-- The code of an expression in condition position. -/
def testWith : Expr → Label → Gen Unit
  | .literal n l, t =>
    routedWith remember n t (testValue n.line t (typedWith remember n (pushLiteral n.line l)))
  | .var n x, t =>
    routedWith remember n t (testValue n.line t (typedWith remember n (pushVariable n.line x)))
  | .unary n op a, t =>
    routedWith remember n t (testValue n.line t
      (typedWith remember n (applyUnary op a.line (valueWith a))))
  | .binary n l (.arith op) r, t =>
    routedWith remember n t (testValue n.line t
      (typedWith remember n (applyArith op l.line (valueWith l) (valueWith r))))
  | .binary n l (.compare c) r, t =>
    routedWith remember n t (testCompare c l.line (valueWith l) (valueWith r) t)
  | .logical n l op r, t =>
    routedWith remember n t (testLogical op (testWith l) (testWith r) t)
  | .grouping n a, t => routedWith remember n t (testWith a t)
  | .assign n x a, t =>
    routedWith remember n t (testValue n.line t
      (typedWith remember n (assign true n.line x (valueWith a))))

end

/-- An expression whose value is not used. -/
def discardWith : Expr → Gen Unit
  | .assign n x a => do
    let _ ← typedWith remember n (assign false n.line x (valueWith remember a))
  | e => do
    let _ ← valueWith remember e
    emit .pop

mutual

/-- The code of a statement. -/
def stmtWith : Stmt → Gen Unit
  | .declare span x e => declare span.line x (valueWith remember e)
  | .print _ e => print (valueWith remember e)
  | .read span x => read span.line x
  | .ifThen _ e yes => ifThen (testWith remember e) (stmtWith yes)
  | .ifElse _ e yes no => ifElse (testWith remember e) (stmtWith yes) (stmtWith no)
  | .whileDo _ e body => whileDo (testWith remember e) (stmtWith body)
  | .block _ ss => stmtsWith ss
  | .expression _ e => discardWith remember e

/-- The code of statements one after the other. -/
def stmtsWith : List Stmt → Gen Unit
  | [] => pure ()
  | s :: ss => do
    stmtWith s
    stmtsWith ss

end

theorem valueWith_of_isCondition {e : Expr} (h : e.isCondition = true) :
    valueWith remember e = typedWith remember e.node (materialize (testWith remember e)) := by
  cases e with
  | binary n l op r => cases op with
    | arith op => cases h
    | compare k => simp only [valueWith, testWith]; rfl
  | logical n l op r => simp only [valueWith, testWith]; rfl
  | _ => cases h

theorem testWith_of_isPlain {e : Expr} (h : e.isPlain = true) (t : Label) :
    testWith remember e t =
      routedWith remember e.node t (testValue e.line t (valueWith remember e)) := by
  cases e with
  | binary n l op r => cases op with
    | arith op => simp only [valueWith, testWith]; rfl
    | compare k => cases h
  | logical n l op r => cases h
  | grouping n a => cases h
  | literal n v => simp only [valueWith, testWith]; rfl
  | var n x => simp only [valueWith, testWith]; rfl
  | unary n op a => simp only [valueWith, testWith]; rfl
  | assign n x a => simp only [valueWith, testWith]; rfl

theorem discardWith_of_not_isAssign {e : Expr} (h : e.isAssign = false) :
    discardWith remember e = (do let _ ← valueWith remember e; emit .pop) := by
  cases e with
  | assign n x a => cases h
  | _ => rfl

end

/-! ## With `record` it is the pass -/

theorem testWith_record_of_isPlain {e : Expr} (hp : e.isPlain = true)
    (hv : valueWith record e = value e) : testWith record e = test e := by
  funext t
  rw [testWith_of_isPlain record hp, test_of_isPlain hp, hv]
  rfl

theorem valueWith_record_of_isCondition {e : Expr} (hc : e.isCondition = true)
    (ht : testWith record e = test e) : valueWith record e = value e := by
  rw [valueWith_of_isCondition record hc, value_of_isCondition hc, ht]
  rfl

theorem valueWith_testWith_record (e : Expr) :
    valueWith record e = value e ∧ testWith record e = test e := by
  induction e with
  | literal n v =>
      have hv : valueWith record (.literal n v) = value (.literal n v) := by
        rw [valueWith, value]
        rfl
      exact ⟨hv, testWith_record_of_isPlain rfl hv⟩
  | var n x =>
      have hv : valueWith record (.var n x) = value (.var n x) := by
        rw [valueWith, value]
        rfl
      exact ⟨hv, testWith_record_of_isPlain rfl hv⟩
  | unary n op a ih =>
      have hv : valueWith record (.unary n op a) = value (.unary n op a) := by
        rw [valueWith, value, ih.1]
        rfl
      exact ⟨hv, testWith_record_of_isPlain rfl hv⟩
  | binary n l op r ihl ihr =>
      cases op with
      | arith op =>
          have hv : valueWith record (.binary n l (.arith op) r) =
              value (.binary n l (.arith op) r) := by
            rw [valueWith, value, ihl.1, ihr.1]
            rfl
          exact ⟨hv, testWith_record_of_isPlain rfl hv⟩
      | compare c =>
          have ht : testWith record (.binary n l (.compare c) r) =
              test (.binary n l (.compare c) r) := by
            funext t
            rw [testWith, test, ihl.1, ihr.1]
            rfl
          exact ⟨valueWith_record_of_isCondition rfl ht, ht⟩
  | logical n l op r ihl ihr =>
      have ht : testWith record (.logical n l op r) = test (.logical n l op r) := by
        funext t
        rw [testWith, test, ihl.2, ihr.2]
        rfl
      exact ⟨valueWith_record_of_isCondition rfl ht, ht⟩
  | grouping n a ih =>
      refine ⟨?_, funext fun t => ?_⟩
      · rw [valueWith, value, ih.1]
        rfl
      · rw [testWith, test, ih.2]
        rfl
  | assign n x a ih =>
      have hv : valueWith record (.assign n x a) = value (.assign n x a) := by
        rw [valueWith, value, ih.1]
        rfl
      exact ⟨hv, testWith_record_of_isPlain rfl hv⟩

theorem valueWith_record (e : Expr) : valueWith record e = value e :=
  (valueWith_testWith_record e).1

theorem testWith_record (e : Expr) : testWith record e = test e :=
  (valueWith_testWith_record e).2

theorem discardWith_record (e : Expr) : discardWith record e = discard e := by
  cases e with
  | assign n x a =>
      rw [discardWith, discard, valueWith_record]
      rfl
  | _ =>
      rw [discardWith_of_not_isAssign record rfl, valueWith_record]
      rfl

mutual

theorem stmtWith_record : ∀ st : Stmt, stmtWith record st = stmt st
  | .declare _ x e => by rw [stmtWith, stmt, valueWith_record]
  | .print _ e => by rw [stmtWith, stmt, valueWith_record]
  | .read _ x => by rw [stmtWith, stmt]
  | .ifThen _ e yes => by rw [stmtWith, stmt, testWith_record, stmtWith_record yes]
  | .ifElse _ e yes no => by
      rw [stmtWith, stmt, testWith_record, stmtWith_record yes, stmtWith_record no]
  | .whileDo _ e body => by rw [stmtWith, stmt, testWith_record, stmtWith_record body]
  | .block _ ss => by rw [stmtWith, stmt, stmtsWith_record ss]
  | .expression _ e => by rw [stmtWith, stmt, discardWith_record]

/-- With `record`, it is the pass. -/
theorem stmtsWith_record : ∀ ss : List Stmt, stmtsWith record ss = stmts ss
  | [] => by rw [stmtsWith, stmts]
  | st :: sts => by rw [stmtsWith, stmts, stmtWith_record st, stmtsWith_record sts]

end

/-! ## Watched steps -/

/-- Remembers the type of a node, but stops if another type is there. -/
def watch (clash : CodeError) (id : Nat) (type : ValueType) : Gen Unit := do
  let g ← get
  if g.types[id]?.getD type = type then record id type else throw clash

theorem watch_run {clash : CodeError} {id : Nat} {τ : ValueType} {g : Generator}
    (h : g.types[id]?.getD τ = τ) : (watch clash id τ).run g = (.ok (), g.note id τ) := by
  have hrun : (watch clash id τ).run g =
      (if g.types[id]?.getD τ = τ then record id τ else throw clash).run g := rfl
  rw [hrun, if_pos h]
  rfl

theorem getElem?_note (g : Generator) (id i : Nat) (τ : ValueType) :
    (g.note id τ).types[i]? = if id = i then some τ else g.types[i]? := by
  show (g.types.insert id τ)[i]? = _
  rw [Std.TreeMap.getElem?_insert]
  simp only [Std.LawfulEqCmp.compare_eq_iff_eq]

/-- The step leaves what is remembered of types alone, whether it succeeds or not. -/
def Quiet {α : Type} (m : Gen α) : Prop := ∀ g, (m.run g).2.types = g.types

namespace Quiet

variable {α β : Type}

theorem pure (a : α) : Quiet (Pure.pure a) := fun _ => rfl

theorem refuse (line : Nat) (fault : CodeFault) : Quiet (refuse line fault : Gen α) :=
  fun _ => rfl

theorem orRefuse (line : Nat) (fault : CodeFault) (o : Option α) :
    Quiet (orRefuse line fault o) := by
  cases o <;> exact fun _ => rfl

theorem emit (i : Instr) : Quiet (emit i) := fun _ => rfl

theorem place (l : Label) : Quiet (place l) := fun _ => rfl

theorem register (id : Nat) (l : Label) : Quiet (register id l) := fun _ => rfl

theorem newGroup : Quiet newGroup := fun _ => rfl

theorem onFrame (f : Frame → α × Frame) : Quiet (onFrame f) := fun _ => rfl

theorem bind {m : Gen α} {k : α → Gen β} (hm : Quiet m) (hk : ∀ a, Quiet (k a)) :
    Quiet (m >>= k) := by
  intro g
  have hfirst := hm g
  rw [run_bind]
  rcases hrun : m.run g with ⟨e | a, g'⟩
  · rw [hrun] at hfirst
    exact hfirst
  · rw [hrun] at hfirst
    exact (hk a g').trans hfirst

theorem branchUnless (c : Comparison) (l : Label) (τ : ValueType) :
    Quiet (branchUnless c l τ) := by
  cases τ with
  | numeric | string => exact (emit _).bind fun _ => emit _
  | bool => exact emit _

end Quiet

/-- Nothing is remembered under the ids. -/
def Unknown (ids : List Nat) (g : Generator) : Prop := ∀ i ∈ ids, g.types[i]? = none

/-- From `g` to `g'`, types were remembered under the ids only. -/
def Within (ids : List Nat) (g g' : Generator) : Prop := ∀ i, i ∉ ids → g'.types[i]? = g.types[i]?

/--
`Watched ids Q m w`: where nothing is remembered under `ids`, the step `m` and its watched form `w`
do the same. If they succeed, they have remembered types under `ids` only, and `Q` holds of the
result and the state.
-/
def Watched {α : Type} (ids : List Nat) (Q : α → Generator → Prop) (m w : Gen α) : Prop :=
  ∀ g, Unknown ids g → w.run g = m.run g ∧
    ∀ a g', m.run g = (.ok a, g') → Within ids g g' ∧ Q a g'

/-- Nothing but the ids is promised. -/
abbrev Anyhow {α : Type} : α → Generator → Prop := fun _ _ => True

/-- The result is the type that is remembered under an id. -/
abbrev Own (id : Nat) (τ : ValueType) (g : Generator) : Prop := g.types[id]? = some τ

/-- The type of a condition is remembered under an id. -/
abbrev OwnBool (id : Nat) (_ : Unit) (g : Generator) : Prop := g.types[id]? = some .bool

namespace Watched

variable {α β : Type} {ids ids' : List Nat} {Q : α → Generator → Prop} {Q' : β → Generator → Prop}
  {m w : Gen α} {k kw : α → Gen β}

/-- Steps one after the other: the second one may use what is known behind the first. -/
theorem andThen (hm : Watched ids Q m w) (hsub : ids ⊆ ids')
    (hk : ∀ g a g₁, Unknown ids' g → Within ids g g₁ → Q a g₁ →
      (kw a).run g₁ = (k a).run g₁ ∧
        ∀ b g', (k a).run g₁ = (.ok b, g') → Within ids' g₁ g' ∧ Q' b g') :
    Watched ids' Q' (m >>= k) (w >>= kw) := by
  intro g hg
  obtain ⟨hsame, hleft⟩ := hm g fun i hi => hg i (hsub hi)
  rw [run_bind, run_bind, hsame]
  rcases hrun : m.run g with ⟨e | a, g₁⟩
  · exact ⟨rfl, fun b g' h => nomatch h⟩
  · obtain ⟨hwithin, hQ⟩ := hleft a g₁ hrun
    obtain ⟨hsame', hright⟩ := hk g a g₁ hg hwithin hQ
    refine ⟨hsame', fun b g' h => ?_⟩
    obtain ⟨hwithin', hQ'⟩ := hright b g' h
    refine ⟨fun i hi => ?_, hQ'⟩
    rw [hwithin' i hi, hwithin i fun hc => hi (hsub hc)]

theorem of_quiet (hm : Quiet m) : Watched [] Anyhow m m := by
  intro g _
  refine ⟨rfl, fun a g' h => ⟨fun i _ => ?_, trivial⟩⟩
  have htypes := hm g
  rw [h] at htypes
  exact congrArg (·[i]?) htypes

/-- Steps that remember types under different ids. -/
theorem bind (hm : Watched ids Q m w) (hk : ∀ a, Watched ids' Q' (k a) (kw a))
    (hd : ids.Disjoint ids') : Watched (ids ++ ids') Q' (m >>= k) (w >>= kw) := by
  refine hm.andThen (List.subset_append_left _ _) fun g a g₁ hg hwithin _ => ?_
  -- the first step has left the ids of the second one alone
  have hfresh : Unknown ids' g₁ := by
    intro i hi
    rw [hwithin i fun hc => hd hc hi]
    exact hg i (List.mem_append_right _ hi)
  obtain ⟨hsame, hright⟩ := hk a g₁ hfresh
  refine ⟨hsame, fun b g' h => ?_⟩
  obtain ⟨hwithin', hQ'⟩ := hright b g' h
  exact ⟨fun i hi => hwithin' i fun hc => hi (List.mem_append_right _ hc), hQ'⟩

/-- A quiet step in front. -/
theorem after {m : Gen α} (hm : Quiet m) (hk : ∀ a, Watched ids Q' (k a) (kw a)) :
    Watched ids Q' (m >>= k) (m >>= kw) :=
  (of_quiet hm).bind hk (List.disjoint_nil_left _)

/-- A quiet step behind, which keeps what is known. -/
theorem before (hm : Watched ids Q m w) (hk : ∀ a, Quiet (k a))
    (hQ : ∀ a g b g', Q a g → (k a).run g = (.ok b, g') → g'.types = g.types → Q' b g') :
    Watched ids Q' (m >>= k) (w >>= k) := by
  refine hm.andThen (List.Subset.refl _) fun g a g₁ _ _ ha => ⟨rfl, fun b g' h => ?_⟩
  have htypes := hk a g₁
  rw [h] at htypes
  exact ⟨fun i _ => congrArg (·[i]?) htypes, hQ a g₁ b g' ha h htypes⟩

/-- A quiet step behind. -/
theorem behind (hm : Watched ids Q m w) (hk : ∀ a, Quiet (k a)) :
    Watched ids Anyhow (m >>= k) (w >>= k) :=
  hm.before hk fun _ _ _ _ _ _ _ => trivial

end Watched

/-! ## Nodes -/

section

variable {clash : CodeError} {ids ids' : List Nat} {n : Node} {m w : Gen ValueType}
  {b bw : Gen Unit} {t tw : Label → Gen Unit}

/-- The type that is there may be remembered once more, and any if there is none. -/
theorem remember_run (clash : CodeError) {g : Generator} {id : Nat} {τ : ValueType}
    (h : g.types[id]?.getD τ = τ) :
    (watch clash id τ).run g = (record id τ).run g ∧
      ∀ u g', (record id τ).run g = (.ok u, g') → Within [id] g g' ∧ g'.types[id]? = some τ := by
  refine ⟨watch_run h, fun u g' hrun => ?_⟩
  obtain rfl : g.note id τ = g' := congrArg Prod.snd hrun
  refine ⟨fun i hi => ?_, ?_⟩
  · rw [getElem?_note, if_neg fun hc => hi (List.mem_singleton.mpr hc.symm)]
  · rw [getElem?_note, if_pos rfl]

theorem Watched.typed {Q : ValueType → Generator → Prop} (hm : Watched ids Q m w)
    (hsub : ids ⊆ ids') (hn : n.id ∈ ids')
    (hfree : ∀ g τ g₁, Unknown ids' g → Within ids g g₁ → Q τ g₁ →
      g₁.types[n.id]?.getD τ = τ) :
    Watched ids' (Own n.id) (typed n m) (typedWith (watch clash) n w) := by
  refine hm.andThen hsub fun g τ g₁ hg hwithin hQ => ?_
  obtain ⟨hsame, hright⟩ := remember_run clash (hfree g τ g₁ hg hwithin hQ)
  refine ⟨by rw [run_bind, run_bind, hsame], fun σ g' hrun => ?_⟩
  obtain ⟨_, g₂, hrecord, hpure⟩ := yields_bind.mp hrun
  obtain ⟨rfl, rfl⟩ := yields_pure.mp hpure
  obtain ⟨hwithin', hown⟩ := hright _ _ hrecord
  exact ⟨fun i hi => hwithin' i fun hc => hi (List.mem_singleton.mp hc ▸ hn), hown⟩

theorem Watched.routed {Q : Unit → Generator → Prop} (hb : Watched ids Q b bw)
    (hsub : ids ⊆ ids') (hn : n.id ∈ ids') (l : Label)
    (hfree : ∀ g u g₁, Unknown ids' g → Within ids g g₁ → Q u g₁ →
      g₁.types[n.id]?.getD .bool = .bool) :
    Watched ids' (OwnBool n.id) (routed n l b) (routedWith (watch clash) n l bw) := by
  refine .after (.register n.id l) fun _ => ?_
  refine hb.andThen hsub fun g u g₁ hg hwithin hQ => ?_
  obtain ⟨hsame, hright⟩ := remember_run clash (hfree g u g₁ hg hwithin hQ)
  refine ⟨hsame, fun u' g' hrun => ?_⟩
  obtain ⟨hwithin', hown⟩ := hright _ _ hrun
  exact ⟨fun i hi => hwithin' i fun hc => hi (List.mem_singleton.mp hc ▸ hn), hown⟩

/-- An id that is not among those of the parts is still free behind them. -/
theorem free_of_not_mem {g g₁ : Generator} (hn : n.id ∉ ids) (hg : Unknown (n.id :: ids) g)
    (hwithin : Within ids g g₁) (τ : ValueType) : g₁.types[n.id]?.getD τ = τ := by
  rw [hwithin n.id hn, hg n.id List.mem_cons_self]
  rfl

theorem Watched.typed_new {Q : ValueType → Generator → Prop} (hm : Watched ids Q m w)
    (hn : n.id ∉ ids) :
    Watched (n.id :: ids) (Own n.id) (Gen.typed n m) (typedWith (watch clash) n w) :=
  hm.typed (List.subset_cons_self _ _) List.mem_cons_self
    fun _ τ _ hg hwithin _ => free_of_not_mem hn hg hwithin τ

theorem Watched.routed_new {Q : Unit → Generator → Prop} (hb : Watched ids Q b bw)
    (hn : n.id ∉ ids) (l : Label) :
    Watched (n.id :: ids) (OwnBool n.id) (Gen.routed n l b)
      (routedWith (watch clash) n l bw) :=
  hb.routed (List.subset_cons_self _ _) List.mem_cons_self l
    fun _ _ _ hg hwithin _ => free_of_not_mem hn hg hwithin .bool

theorem Watched.testValue (hm : Watched ids (Own n.id) m w) (line : Nat) (l : Label) :
    Watched ids (OwnBool n.id) (testValue line l m) (testValue line l w) := by
  refine hm.before (fun τ => ?_) fun τ g u g' hown hrun htypes => ?_
  · split
    · exact .emit _
    · exact .refuse _ _
  · -- only the type of a condition gets through
    split at hrun
    · rename_i hτ
      subst hτ
      rw [OwnBool, htypes]
      exact hown
    · cases hrun

theorem Watched.materialize (ht : ∀ l, Watched ids (OwnBool n.id) (t l) (tw l)) :
    Watched ids (Own n.id) (materialize t) (materialize tw) := by
  refine .after .newGroup fun group => ?_
  refine (ht _).before (fun _ => ?_) fun _ g τ g' hown hrun htypes => ?_
  · exact (Quiet.emit _).bind fun _ => (Quiet.emit _).bind fun _ => (Quiet.place _).bind fun _ =>
      (Quiet.emit _).bind fun _ => (Quiet.place _).bind fun _ => .pure _
  · obtain rfl : ValueType.bool = τ := Except.ok.inj (congrArg Prod.fst hrun)
    rw [Own, htypes]
    exact hown

end

/-! ## Expressions -/

section

variable {clash : CodeError} {e : Expr}

/-- The watched pass over an expression is the pass, and leaves the type of the expression. -/
def SureValue (clash : CodeError) (e : Expr) : Prop :=
  Watched e.ids (Own e.id) (value e) (valueWith (watch clash) e)

/-- The same in condition position. -/
def SureTest (clash : CodeError) (e : Expr) : Prop :=
  ∀ t, Watched e.ids (OwnBool e.id) (test e t) (testWith (watch clash) e t)

theorem sureTest_of_value (hp : e.isPlain = true) (hv : SureValue clash e) :
    SureTest clash e := by
  intro t
  rw [test_of_isPlain hp, testWith_of_isPlain _ hp]
  refine (Watched.testValue (n := e.node) hv e.line t).routed (List.Subset.refl _) e.id_mem_ids t ?_
  intro g u g₁ _ _ hown
  have hbool : g₁.types[e.node.id]? = some .bool := hown
  rw [hbool]
  rfl

theorem sureValue_of_test (hc : e.isCondition = true) (ht : SureTest clash e) :
    SureValue clash e := by
  unfold SureValue
  rw [value_of_isCondition hc, valueWith_of_isCondition _ hc]
  refine (Watched.materialize (n := e.node) ht).typed (List.Subset.refl _) e.id_mem_ids ?_
  intro g τ g₁ _ _ hown
  have hsome : g₁.types[e.node.id]? = some τ := hown
  rw [hsome]
  rfl

/-- **The pass over an expression, watched or not, is the same.** -/
theorem sure_of_nodup (e : Expr) (hnd : e.ids.Nodup) : SureValue clash e ∧ SureTest clash e := by
  induction e with
  | literal n v =>
      have hquiet : Quiet (pushLiteral n.line v) := by
        cases v with
        | null => exact .refuse _ _
        | number | string | bool => exact (Quiet.emit _).bind fun _ => .pure _
      have hv : SureValue clash (.literal n v) := by
        unfold SureValue
        rw [value, valueWith]
        exact (Watched.of_quiet hquiet).typed_new List.not_mem_nil
      exact ⟨hv, sureTest_of_value rfl hv⟩
  | var n x =>
      have hquiet : Quiet (pushVariable n.line x) :=
        (Quiet.onFrame _).bind fun _ => (Quiet.orRefuse _ _ _).bind fun _ =>
          (Quiet.emit _).bind fun _ => .pure _
      have hv : SureValue clash (.var n x) := by
        unfold SureValue
        rw [value, valueWith]
        exact (Watched.of_quiet hquiet).typed_new List.not_mem_nil
      exact ⟨hv, sureTest_of_value rfl hv⟩
  | unary n op a ih =>
      obtain ⟨hn, ha⟩ := List.nodup_cons.mp hnd
      have hv : SureValue clash (.unary n op a) := by
        unfold SureValue
        rw [value, valueWith]
        refine Watched.typed_new (Watched.behind (ih ha).1 fun τ => ?_) hn
        split
        · exact (Quiet.emit _).bind fun _ => (Quiet.emit _).bind fun _ => .pure _
        · exact (Quiet.emit _).bind fun _ => .pure _
        · exact .refuse _ _
      exact ⟨hv, sureTest_of_value rfl hv⟩
  | binary n l op r ihl ihr =>
      obtain ⟨hn, hparts⟩ := List.nodup_cons.mp hnd
      obtain ⟨hl, hr, hd⟩ := List.nodup_append'.mp hparts
      cases op with
      | arith op =>
          have hv : SureValue clash (.binary n l (.arith op) r) := by
            unfold SureValue
            rw [value, valueWith]
            refine Watched.typed_new (Q := Anyhow) (Watched.bind (ihl hl).1 (fun τ => ?_) hd) hn
            refine Watched.behind (ihr hr).1 fun σ => ?_
            split
            · exact (Quiet.emit _).bind fun _ => .pure _
            · exact .refuse _ _
          exact ⟨hv, sureTest_of_value rfl hv⟩
      | compare c =>
          have ht : SureTest clash (.binary n l (.compare c) r) := by
            intro t
            rw [test, testWith]
            refine Watched.routed_new (Q := Anyhow) (Watched.bind (ihl hl).1 (fun τ => ?_) hd) hn t
            refine Watched.behind (ihr hr).1 fun σ => ?_
            split
            · exact .branchUnless c t τ
            · exact .refuse _ _
          exact ⟨sureValue_of_test rfl ht, ht⟩
  | logical n l op r ihl ihr =>
      obtain ⟨hn, hparts⟩ := List.nodup_cons.mp hnd
      obtain ⟨hl, hr, hd⟩ := List.nodup_append'.mp hparts
      have ht : SureTest clash (.logical n l op r) := by
        intro t
        rw [test, testWith]
        cases op with
        | and =>
            exact Watched.routed_new (Watched.bind ((ihl hl).2 t) (fun _ => (ihr hr).2 t) hd) hn t
        | or =>
            refine Watched.routed_new (Q := Anyhow) (.after .newGroup fun group => ?_) hn t
            refine Watched.bind ((ihl hl).2 _) (fun _ => ?_) hd
            refine .after (.emit _) fun _ => .after (.place _) fun _ => ?_
            exact Watched.behind ((ihr hr).2 t) fun _ => .place _
      exact ⟨sureValue_of_test rfl ht, ht⟩
  | grouping n a ih =>
      obtain ⟨hn, ha⟩ := List.nodup_cons.mp hnd
      refine ⟨?_, fun t => ?_⟩
      · unfold SureValue
        rw [value, valueWith]
        exact Watched.typed_new (ih ha).1 hn
      · rw [test, testWith]
        exact Watched.routed_new ((ih ha).2 t) hn t
  | assign n x a ih =>
      obtain ⟨hn, ha⟩ := List.nodup_cons.mp hnd
      have hv : SureValue clash (.assign n x a) := by
        unfold SureValue
        rw [value, valueWith]
        refine Watched.typed_new (Watched.behind (ih ha).1 fun τ => ?_) hn
        exact (Quiet.onFrame _).bind fun _ => (Quiet.orRefuse _ _ _).bind fun _ =>
          (Quiet.emit _).bind fun _ => (Quiet.emit _).bind fun _ => .pure _
      exact ⟨hv, sureTest_of_value rfl hv⟩

end

/-! ## Statements -/

section

variable {clash : CodeError}

theorem watched_discard (e : Expr) (hnd : e.ids.Nodup) :
    Watched e.ids Anyhow (discard e) (discardWith (watch clash) e) := by
  by_cases hassign : e.isAssign = true
  · cases e with
    | assign n x a =>
        obtain ⟨hn, ha⟩ := List.nodup_cons.mp hnd
        rw [discard, discardWith]
        refine Watched.behind (Watched.typed_new (Watched.behind (sure_of_nodup a ha).1 ?_) hn) ?_
        · exact fun τ => (Quiet.onFrame _).bind fun _ => (Quiet.orRefuse _ _ _).bind fun _ =>
            (Quiet.pure _).bind fun _ => (Quiet.emit _).bind fun _ => .pure _
        · exact fun _ => .pure _
    | _ => cases hassign
  · have hplain : e.isAssign = false := Bool.eq_false_iff.mpr hassign
    rw [← discardWith_record, discardWith_of_not_isAssign _ hplain,
      discardWith_of_not_isAssign _ hplain, valueWith_record]
    exact Watched.behind (sure_of_nodup e hnd).1 fun _ => .emit _

mutual

theorem watched_stmt : ∀ st : Stmt, st.ids.Nodup →
    Watched st.ids Anyhow (stmt st) (stmtWith (watch clash) st)
  | .declare span x e, hnd => by
      rw [stmt, stmtWith]
      exact Watched.behind (sure_of_nodup e hnd).1 fun τ => (Quiet.onFrame _).bind fun _ =>
        (Quiet.orRefuse _ _ _).bind fun _ => .emit _
  | .print _ e, hnd => by
      rw [stmt, stmtWith]
      exact .after (.emit _) fun _ => Watched.behind (sure_of_nodup e hnd).1 fun τ => .emit _
  | .read span x, _ => by
      rw [stmt, stmtWith]
      exact .of_quiet <| (Quiet.onFrame _).bind fun _ => (Quiet.orRefuse _ _ _).bind fun _ =>
        (Quiet.onFrame _).bind fun _ => (Quiet.orRefuse _ _ _).bind fun _ =>
        (Quiet.emit _).bind fun _ => (Quiet.emit _).bind fun _ =>
        (Quiet.onFrame _).bind fun _ => (Quiet.orRefuse _ _ _).bind fun _ => .emit _
  | .ifThen _ e yes, hnd => by
      obtain ⟨he, hyes, hd⟩ := List.nodup_append'.mp hnd
      rw [stmt, stmtWith]
      refine .after .newGroup fun group => ?_
      refine Watched.bind ((sure_of_nodup e he).2 _) (fun _ => .after (.place _) fun _ => ?_) hd
      exact (watched_stmt yes hyes).behind fun _ => .place _
  | .ifElse _ e yes no, hnd => by
      obtain ⟨hfirst, hno, hd⟩ := List.nodup_append'.mp hnd
      obtain ⟨he, hyes, hd'⟩ := List.nodup_append'.mp hfirst
      rw [stmt, stmtWith]
      refine .after .newGroup fun group => ?_
      rw [Stmt.ids, List.append_assoc]
      refine Watched.bind ((sure_of_nodup e he).2 _) (fun _ => .after (.place _) fun _ => ?_) ?_
      · refine Watched.bind (watched_stmt yes hyes) (fun _ => ?_) ?_
        · refine .after (.emit _) fun _ => .after (.place _) fun _ => ?_
          exact (watched_stmt no hno).behind fun _ => .place _
        · exact fun i hi hi' => hd (List.mem_append_right _ hi) hi'
      · intro i hi hi'
        rcases List.mem_append.mp hi' with hi' | hi'
        · exact hd' hi hi'
        · exact hd (List.mem_append_left _ hi) hi'
  | .whileDo _ e body, hnd => by
      obtain ⟨he, hbody, hd⟩ := List.nodup_append'.mp hnd
      rw [stmt, stmtWith]
      refine .after .newGroup fun group => .after (.place _) fun _ => ?_
      refine Watched.bind ((sure_of_nodup e he).2 _) (fun _ => ?_) hd
      exact (watched_stmt body hbody).behind fun _ => (Quiet.emit _).bind fun _ => .place _
  | .block _ ss, hnd => by
      rw [stmt, stmtWith]
      exact watched_stmts ss hnd
  | .expression _ e, hnd => by
      rw [stmt, stmtWith]
      exact watched_discard e hnd

theorem watched_stmts : ∀ ss : List Stmt, (Stmt.idsAll ss).Nodup →
    Watched (Stmt.idsAll ss) Anyhow (stmts ss) (stmtsWith (watch clash) ss)
  | [], _ => by
      rw [stmts, stmtsWith]
      exact .of_quiet (.pure _)
  | st :: sts, hnd => by
      obtain ⟨hst, hsts, hd⟩ := List.nodup_append'.mp hnd
      rw [stmts, stmtsWith]
      exact Watched.bind (watched_stmt st hst) (fun _ => watched_stmts sts hsts) hd

end

/-- **A program whose ids are distinct never replaces a type.** -/
theorem stmtsWith_watch_run {p : Program} (hids : p.ids.Nodup) :
    (stmtsWith (watch clash) p.stmts).run .empty = Generator.empty.generate p :=
  (watched_stmts p.stmts hids .empty fun _ _ => Std.TreeMap.getElem?_emptyc).1

end

end Dam.Gen
