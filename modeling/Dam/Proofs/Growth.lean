import Dam.Proofs.FrameHistory
import Dam.Proofs.LabelGroups

/-!
# The pass only adds

One generator can be given program after program, also behind one that was refused. A
refusal comes in the middle of things: a value is pushed and never stored, a label is jumped
to and never placed. All this stays where it is. The main statement, `generate_appends`, is
that a call never takes back or changes anything that was there before, whatever came of
that call and of the calls before it, and that a program which is not refused has code of its
own: its labels are new, and its jumps stay inside.

That labels are new is a matter of what refused programs have left behind. So the judgement
`Gen.Grows`, which holds of every step of the pass whether or not it succeeds, also says
that the code speaks of no group of labels before the group is taken. It has to know which
labels a step may jump to, since a condition is given its target from outside.
-/

namespace Dam

/-! ## Frames -/

namespace Frame

variable {f f' f'' : Frame}

/-- The variables in the order of declaration, each with its slot. -/
def slotted (f : Frame) : List (String × Nat) := f.toList.map fun r => (r.1, r.2.slot)

/-- From `f` to `f'` names and slots were added, and nothing else has happened to them. -/
structure Grows (f f' : Frame) : Prop where
  keeps : f.Keeps f'
  declared : f.declared <:+ f'.declared
  valid : f.Valid → f'.Valid

theorem Grows.refl (f : Frame) : f.Grows f := ⟨.refl f, List.suffix_refl _, id⟩

theorem Grows.trans (h : f.Grows f') (h' : f'.Grows f'') : f.Grows f'' :=
  ⟨h.keeps.trans h'.keeps, h.declared.trans h'.declared, fun hf => h'.valid (h.valid hf)⟩

theorem Acts.grows {c : Call} {a : Option Answer} (h : f.Acts c a f') : f.Grows f' := by
  refine ⟨h.keeps, ?_, h.valid⟩
  cases h with
  | declare => exact List.suffix_cons _ _
  | redeclare | noRoom | assign | unknown | openScanner | hasScanner | noScanner | type | slot =>
      exact List.suffix_refl _

theorem grows_assign (f : Frame) (x : String) (τ : ValueType) : f.Grows (f.assign x τ).2 :=
  (f.acts_run (.assign x τ)).grows

theorem grows_define (f : Frame) (x : String) (τ : ValueType) : f.Grows (f.define x τ).2 :=
  (f.acts_run (.define x τ)).grows

theorem grows_useScanner (f : Frame) : f.Grows f.useScanner.2 :=
  (f.acts_run .useScanner).grows

theorem slotted_eq (f : Frame) :
    f.slotted = f.declared.reverse.filterMap fun x => (f.slot? x).map fun k => (x, k) := by
  unfold slotted toList slot?
  rw [List.map_filterMap]
  congr 1
  funext x
  cases f.table[x]? <;> rfl

theorem Grows.slotted (h : f.Grows f') (hf : f.Valid) : f.slotted <+: f'.slotted := by
  obtain ⟨new, hnew⟩ := h.declared
  rw [slotted_eq, slotted_eq, ← hnew, List.reverse_append, List.filterMap_append]
  -- a name in the list has a slot, and that slot is kept
  have hsame : ∀ x ∈ f.declared.reverse,
      (f.slot? x).map (fun k => (x, k)) = (f'.slot? x).map fun k => (x, k) := by
    intro x hx
    obtain ⟨k, hk⟩ := exists_slot?.mpr ((hf.listed x).mp (List.mem_reverse.mp hx))
    rw [hk, h.keeps.slot x k hk]
  rw [List.filterMap_congr hsame]
  exact List.prefix_append _ _

end Frame

/-! ## Labels -/

/-- The labels of a group. -/
def Label.group (n : Nat) : List Label := stems.map fun stem => numbered stem n

theorem Label.mem_group {stem : String} (h : stem ∈ stems) (n : Nat) :
    numbered stem n ∈ group n :=
  List.mem_map_of_mem h

theorem Label.inGroups_of_mem_group {l : Label} {n : Nat} (h : l ∈ group n) :
    l.InGroups n (n + 1) := by
  obtain ⟨stem, hstem, rfl⟩ := List.mem_map.mp h
  exact ⟨stem, hstem, n, Nat.le_refl _, Nat.lt_succ_self _, rfl⟩

/-- The labels that code places or jumps to. -/
def Code.mentions (items : List Item) : List Label := labels items ++ targets items

theorem Code.mem_mentions_append {l : Label} {c c' : List Item} :
    l ∈ mentions (c ++ c') ↔ l ∈ mentions c ∨ l ∈ mentions c' := by
  simp only [mentions, labels_append, targets_append, List.mem_append]
  exact or_or_or_comm

/-! ## States -/

namespace Generator

variable {g g' g'' : Generator} {l : Label}

/-- The label is of a group that was taken. -/
def Knows (g : Generator) (l : Label) : Prop := l.InGroups 0 g.nextGroup

/-- The code speaks of no group that was not taken. -/
def Tidy (g : Generator) : Prop := ∀ l ∈ Code.mentions g.items, g.Knows l

/-- From `g` to `g'` something was added, and nothing else has happened. -/
structure Grows (g g' : Generator) : Prop where
  items : g.items <+: g'.items
  frame : g.frame.Grows g'.frame
  groups : g.nextGroup ≤ g'.nextGroup
  tidy : g.Tidy → g'.Tidy

theorem Grows.refl (g : Generator) : g.Grows g :=
  ⟨List.prefix_refl _, .refl _, Nat.le_refl _, id⟩

theorem Grows.trans (h : g.Grows g') (h' : g'.Grows g'') : g.Grows g'' :=
  ⟨h.items.trans h'.items, h.frame.trans h'.frame, Nat.le_trans h.groups h'.groups,
    fun hg => h'.tidy (h.tidy hg)⟩

theorem Grows.knows (h : g.Grows g') (hl : g.Knows l) : g'.Knows l :=
  Label.InGroups.mono hl (Nat.le_refl _) h.groups

@[simp] theorem items_push (g : Generator) (x : Item) : (g.push x).items = g.items ++ [x] := by
  simp [items, push]

theorem grows_push {x : Item} (hx : ∀ l ∈ Code.mentions [x], g.Knows l) : g.Grows (g.push x) := by
  refine ⟨?_, .refl _, Nat.le_refl _, fun hg l hl => ?_⟩
  · rw [items_push]
    exact List.prefix_append _ _
  · rw [items_push, Code.mem_mentions_append] at hl
    rcases hl with hl | hl
    · exact hg l hl
    · exact hx l hl

theorem grows_newGroup (g : Generator) : g.Grows { g with nextGroup := g.nextGroup + 1 } := by
  refine ⟨List.prefix_refl _, .refl _, Nat.le_succ _, fun hg l hl => ?_⟩
  exact Label.InGroups.mono (hg l hl) (Nat.le_refl _) (Nat.le_succ _)

end Generator

/-! ## Steps of the pass -/

namespace Gen

variable {α β : Type} {known known' : List Label}

/--
Where the labels `known` are of groups that were taken, the step `m` only adds to the state,
whether it succeeds or not.
-/
def Grows (known : List Label) (m : Gen α) : Prop :=
  ∀ g : Generator, (∀ l ∈ known, g.Knows l) → g.Grows (m.run g).2

namespace Grows

theorem pure (a : α) : Grows known (Pure.pure a) := fun g _ => .refl g

theorem refuse (line : Nat) (fault : CodeFault) : Grows known (refuse line fault : Gen α) :=
  fun g _ => .refl g

theorem orRefuse (line : Nat) (fault : CodeFault) (o : Option α) :
    Grows known (orRefuse line fault o) := by
  cases o with
  | none => exact refuse line fault
  | some a => exact pure a

theorem record (i : Nat) (τ : ValueType) : Grows known (record i τ) :=
  fun _ _ => ⟨List.prefix_refl _, .refl _, Nat.le_refl _, id⟩

theorem register (i : Nat) (l : Label) : Grows known (register i l) :=
  fun _ _ => ⟨List.prefix_refl _, .refl _, Nat.le_refl _, id⟩

/-- An instruction that jumps nowhere. -/
theorem emit {i : Instr} (h : i.target? = none) : Grows known (emit i) := by
  intro g _
  refine Generator.grows_push fun l hl => ?_
  simp [Code.mentions, h] at hl

theorem jump {i : Instr} {l : Label} (h : i.target? = some l) (hl : l ∈ known) :
    Grows known (Gen.emit i) := by
  intro g hg
  refine Generator.grows_push fun l' hl' => ?_
  have heq : l' = l := by simpa [Code.mentions, h] using hl'
  exact heq ▸ hg l hl

theorem place {l : Label} (hl : l ∈ known) : Grows known (place l) := by
  intro g hg
  refine Generator.grows_push fun l' hl' => ?_
  have heq : l' = l := by simpa [Code.mentions] using hl'
  exact heq ▸ hg l hl

theorem onFrame {f : Frame → α × Frame} (hf : ∀ frame : Frame, frame.Grows (f frame).2) :
    Grows known (onFrame f) :=
  fun g _ => ⟨List.prefix_refl _, hf g.frame, Nat.le_refl _, id⟩

theorem weaken {m : Gen α} (h : Grows known m) (hsub : known ⊆ known') : Grows known' m :=
  fun g hg => h g fun l hl => hg l (hsub hl)

/-- A step that needs no label can be taken anywhere. -/
theorem anywhere {m : Gen α} (h : Grows [] m) : Grows known m := h.weaken (List.nil_subset _)

/-- Whatever is known in front of the first step is known in front of the second one. -/
theorem bind {m : Gen α} {k : α → Gen β} (hm : Grows known m) (hk : ∀ a, Grows known (k a)) :
    Grows known (m >>= k) := by
  intro g hg
  have hfirst := hm g hg
  rw [run_bind]
  rcases hrun : m.run g with ⟨e | a, g'⟩
  · -- a refusal leaves everything as the first step has left it
    rw [hrun] at hfirst
    exact hfirst
  · rw [hrun] at hfirst
    exact hfirst.trans (hk a g' fun l hl => hfirst.knows (hg l hl))

/-- What follows may use the labels of the new group. -/
theorem newGroup {k : Nat → Gen β} (hk : ∀ n, Grows (Label.group n ++ known) (k n)) :
    Grows known (newGroup >>= k) := by
  intro g hg
  have htaken := g.grows_newGroup
  refine htaken.trans (hk g.nextGroup _ fun l hl => ?_)
  rcases List.mem_append.mp hl with hl | hl
  · exact (Label.inGroups_of_mem_group hl).mono (Nat.zero_le _) (Nat.le_refl _)
  · exact htaken.knows (hg l hl)

/-! ## Pieces of expressions -/

variable {n : Node} {line : Nat} {x : String} {m m' : Gen ValueType} {t t' : Label → Gen Unit}

theorem typed (hm : Grows known m) : Grows known (typed n m) :=
  hm.bind fun τ => (record _ τ).bind fun _ => pure τ

theorem routed {b : Gen Unit} (hb : Grows known b) (l : Label) : Grows known (routed n l b) :=
  (register _ l).bind fun _ => hb.bind fun _ => record _ _

theorem testValue {l : Label} (hm : Grows known m) (hl : l ∈ known) :
    Grows known (testValue line l m) := by
  refine hm.bind fun τ => ?_
  split
  · exact jump rfl hl
  · exact refuse _ _

/-- A label of the group just taken. -/
theorem own {stem : String} (h : stem ∈ Label.stems) (k : Nat) :
    Label.numbered stem k ∈ Label.group k ++ known :=
  List.mem_append_left _ (Label.mem_group h k)

/-- A condition in a place where its target is known. -/
theorem aimed {l : Label} (ht : ∀ l, Grows [l] (t l)) (hl : l ∈ known) : Grows known (t l) :=
  (ht l).weaken (List.cons_subset.mpr ⟨hl, List.nil_subset _⟩)

theorem materialize (ht : ∀ l, Grows [l] (t l)) : Grows known (materialize t) := by
  -- if the condition is refused, its target is never placed, but its group is taken
  refine newGroup fun k => (aimed ht (own (by decide) k)).bind fun _ => ?_
  refine (emit rfl).bind fun _ => (jump rfl (own (by decide) k)).bind fun _ => ?_
  refine (place (own (by decide) k)).bind fun _ => (emit rfl).bind fun _ => ?_
  exact (place (own (by decide) k)).bind fun _ => pure _

theorem pushLiteral (v : Literal) : Grows known (pushLiteral line v) := by
  cases v with
  | null => exact refuse _ _
  | number | string | bool => exact (emit rfl).bind fun _ => pure _

theorem pushVariable : Grows known (pushVariable line x) := by
  refine (onFrame fun f => .refl f).bind fun found => (orRefuse _ _ found).bind fun v => ?_
  exact (emit rfl).bind fun _ => pure _

theorem assign (hm : Grows known m) (keep : Bool) : Grows known (assign keep line x m) := by
  refine hm.bind fun τ => (onFrame fun f => f.grows_assign x τ).bind fun slot => ?_
  refine (orRefuse _ _ slot).bind fun k => ?_
  have hstore : Grows known (do Gen.emit (.store τ k); return τ) :=
    (emit rfl).bind fun _ => pure τ
  cases keep with
  | true => exact (emit (i := .dup) rfl).bind fun _ => hstore
  | false => exact hstore

theorem applyUnary (hm : Grows known m) (op : UnaryOp) : Grows known (applyUnary op line m) := by
  refine hm.bind fun τ => ?_
  split
  · exact (emit rfl).bind fun _ => (emit rfl).bind fun _ => pure _
  · exact (emit rfl).bind fun _ => pure _
  · exact refuse _ _

theorem applyArith (hm : Grows known m) (hm' : Grows known m') (op : ArithOp) :
    Grows known (applyArith op line m m') := by
  refine hm.bind fun τ => hm'.bind fun σ => ?_
  split
  · rename_i i hi
    split at hi
    · exact (emit (target?_arithInstr hi)).bind fun _ => pure τ
    · cases hi
  · exact refuse _ _

theorem branchUnless {l : Label} (hl : l ∈ known) (c : Comparison) (τ : ValueType) :
    Grows known (branchUnless c l τ) := by
  cases τ with
  | numeric =>
      have hplain : (floatCompare c).target? = none := by cases c <;> rfl
      exact (emit hplain).bind fun _ => jump rfl hl
  | string => exact (emit rfl).bind fun _ => jump rfl hl
  | bool => exact jump rfl hl

theorem testCompare {l : Label} (hm : Grows known m) (hm' : Grows known m') (hl : l ∈ known)
    (c : Comparison) : Grows known (testCompare c line m m' l) := by
  refine hm.bind fun τ => hm'.bind fun σ => ?_
  split
  · exact branchUnless hl c τ
  · exact refuse _ _

theorem testLogical {l : Label} (ht : ∀ l, Grows [l] (t l)) (ht' : ∀ l, Grows [l] (t' l))
    (hl : l ∈ known) (op : LogicalOp) : Grows known (testLogical op t t' l) := by
  cases op with
  | and => exact (aimed ht hl).bind fun _ => aimed ht' hl
  | or =>
      refine newGroup fun k => (aimed ht (own (by decide) k)).bind fun _ => ?_
      refine (jump rfl (own (by decide) k)).bind fun _ => ?_
      refine (place (own (by decide) k)).bind fun _ => ?_
      -- the second condition jumps out, to where the whole one was to jump
      refine (aimed ht' (List.mem_append_right _ hl)).bind fun _ => ?_
      exact place (own (by decide) k)

/-! ## Expressions -/

/-- The pass over an expression only adds, in both positions. -/
def Both (e : Expr) : Prop := Grows [] (value e) ∧ ∀ l, Grows [l] (test e l)

variable {e : Expr}

theorem both_of_value (hp : e.isPlain = true) (hv : Grows [] (value e)) : Both e := by
  refine ⟨hv, fun l => ?_⟩
  rw [test_of_isPlain hp]
  exact (hv.anywhere.testValue (List.mem_singleton_self l)).routed l

theorem both_of_test (hc : e.isCondition = true) (ht : ∀ l, Grows [l] (test e l)) : Both e := by
  refine ⟨?_, ht⟩
  rw [value_of_isCondition hc]
  exact (materialize ht).typed

theorem both (e : Expr) : Both e := by
  induction e with
  | literal n v =>
      refine both_of_value rfl ?_
      rw [value]
      exact (pushLiteral v).typed
  | var n x =>
      refine both_of_value rfl ?_
      rw [value]
      exact pushVariable.typed
  | unary n op a ih =>
      refine both_of_value rfl ?_
      rw [value]
      exact (ih.1.applyUnary op).typed
  | binary n a op b iha ihb =>
      cases op with
      | arith op =>
          refine both_of_value rfl ?_
          rw [value]
          exact (iha.1.applyArith ihb.1 op).typed
      | compare c =>
          refine both_of_test rfl fun l => ?_
          rw [test]
          exact (iha.1.anywhere.testCompare ihb.1.anywhere (List.mem_singleton_self l) c).routed l
  | logical n a op b iha ihb =>
      refine both_of_test rfl fun l => ?_
      rw [test]
      exact (testLogical iha.2 ihb.2 (List.mem_singleton_self l) op).routed l
  | grouping n a ih =>
      refine ⟨?_, fun l => ?_⟩
      · rw [value]
        exact ih.1.typed
      · rw [test]
        exact (ih.2 l).routed l
  | assign n x a ih =>
      refine both_of_value rfl ?_
      rw [value]
      exact (ih.1.assign true).typed

/-! ## Statements -/

theorem discard (e : Expr) : Grows known (discard e) := by
  cases e with
  | assign n x a =>
      have hstore : Grows known (Gen.typed n (Gen.assign false n.line x (Gen.value a))) :=
        ((both a).1.anywhere.assign false).typed
      exact hstore.bind fun _ => pure ()
  | literal | var | unary | binary | logical | grouping =>
      exact (both _).1.anywhere.bind fun _ => emit rfl

theorem declare (hm : Grows known m) : Grows known (declare line x m) := by
  refine hm.bind fun τ => (onFrame fun f => f.grows_define x τ).bind fun slot => ?_
  exact (orRefuse _ _ slot).bind fun _ => emit rfl

theorem print (hm : Grows known m) : Grows known (print m) :=
  (emit rfl).bind fun _ => hm.bind fun _ => emit rfl

theorem read : Grows known (read line x) := by
  refine (onFrame fun f => .refl f).bind fun slot => (orRefuse _ _ slot).bind fun _ => ?_
  refine (onFrame Frame.grows_useScanner).bind fun scanner => ?_
  refine (orRefuse _ _ scanner).bind fun _ => (emit rfl).bind fun _ => (emit rfl).bind fun _ => ?_
  refine (onFrame fun f => f.grows_assign x .string).bind fun slot => ?_
  exact (orRefuse _ _ slot).bind fun _ => emit rfl

variable {b b' : Gen Unit}

theorem ifThen (ht : ∀ l, Grows [l] (t l)) (hb : Grows [] b) : Grows [] (ifThen t b) := by
  refine newGroup fun k => (aimed ht (own (by decide) k)).bind fun _ => ?_
  refine (place (own (by decide) k)).bind fun _ => ?_
  exact hb.anywhere.bind fun _ => place (own (by decide) k)

theorem ifElse (ht : ∀ l, Grows [l] (t l)) (hb : Grows [] b) (hb' : Grows [] b') :
    Grows [] (ifElse t b b') := by
  refine newGroup fun k => (aimed ht (own (by decide) k)).bind fun _ => ?_
  refine (place (own (by decide) k)).bind fun _ => ?_
  refine hb.anywhere.bind fun _ => ?_
  refine (jump rfl (own (by decide) k)).bind fun _ => (place (own (by decide) k)).bind fun _ => ?_
  exact hb'.anywhere.bind fun _ => place (own (by decide) k)

theorem whileDo (ht : ∀ l, Grows [l] (t l)) (hb : Grows [] b) : Grows [] (whileDo t b) := by
  refine newGroup fun k => (place (own (by decide) k)).bind fun _ => ?_
  refine (aimed ht (own (by decide) k)).bind fun _ => ?_
  refine hb.anywhere.bind fun _ => ?_
  exact (jump rfl (own (by decide) k)).bind fun _ => place (own (by decide) k)

mutual

theorem stmt : ∀ st : Stmt, Grows [] (stmt st)
  | .declare _ x e => by
      rw [Gen.stmt]
      exact (both e).1.declare
  | .print _ e => by
      rw [Gen.stmt]
      exact (both e).1.print
  | .read _ x => by
      rw [Gen.stmt]
      exact read
  | .ifThen _ e yes => by
      rw [Gen.stmt]
      exact ifThen (both e).2 (stmt yes)
  | .ifElse _ e yes no => by
      rw [Gen.stmt]
      exact ifElse (both e).2 (stmt yes) (stmt no)
  | .whileDo _ e body => by
      rw [Gen.stmt]
      exact whileDo (both e).2 (stmt body)
  | .block _ ss => by
      rw [Gen.stmt]
      exact stmts ss
  | .expression _ e => by
      rw [Gen.stmt]
      exact discard e

theorem stmts : ∀ ss : List Stmt, Grows [] (stmts ss)
  | [] => by
      rw [Gen.stmts]
      exact pure ()
  | st :: ss => by
      rw [Gen.stmts]
      exact (stmt st).bind fun _ => stmts ss

end

end Grows

end Gen

/-! ## Calls -/

namespace Generator

/-- The state behind some calls, of which any may have failed. -/
def after (calls : List Program) : Generator := calls.foldl (fun g p => (g.generate p).2) empty

theorem generate_grows (g : Generator) (p : Program) : g.Grows (g.generate p).2 :=
  Gen.Grows.stmts p.stmts g fun _ hl => nomatch hl

theorem grows_after (calls : List Program) : empty.Grows (after calls) := by
  induction calls using List.reverseRecOn with
  | nil => exact .refl _
  | append_singleton calls p ih =>
      rw [after, List.foldl_append]
      exact ih.trans (generate_grows _ p)

theorem valid_after (calls : List Program) : (after calls).frame.Valid :=
  (grows_after calls).frame.valid Frame.valid_empty

theorem tidy_after (calls : List Program) : (after calls).Tidy :=
  (grows_after calls).tidy fun _ hl => nomatch hl

/-- `g'` is `g` with the code `added`, and perhaps more variables, a scanner and more groups. -/
structure Appends (g g' : Generator) (added : List Item) : Prop where
  items : g'.items = g.items ++ added
  /-- The variables that were there come first, in their order and with their slots. -/
  slotted : g.frame.slotted <+: g'.frame.slotted
  scanner : ∀ k, g.frame.scanner = some k → g'.frame.scanner = some k
  groups : g.nextGroup ≤ g'.nextGroup

/-- The code `added`, which stands behind `g` in `g'`, has labels of its own and no others. -/
structure Encloses (g g' : Generator) (added : List Item) : Prop where
  /-- All labels in it are of groups that were taken meanwhile. -/
  own : ∀ l ∈ Code.mentions added, l.InGroups g.nextGroup g'.nextGroup
  /-- Each is placed once, in all of the code. -/
  once : ∀ l ∈ Code.mentions added, (Code.labels g'.items).count l = 1
  /-- No jump leaves it. -/
  inside : ∀ l ∈ Code.targets added, l ∈ Code.labels added
  /-- What was there before knows nothing of its labels: no jump enters it. -/
  apart : ∀ l ∈ Code.mentions added, l ∉ Code.mentions g.items

theorem encloses_of_linked {g g' : Generator} {added : List Item}
    (h : Linked g.scope g'.scope [] added) (hitems : g'.items = g.items ++ added)
    (hg : g.Tidy) : g.Encloses g' added := by
  have hinside : ∀ l ∈ Code.targets added, l ∈ Code.labels added :=
    fun l hl => (h.targets l hl).resolve_right List.not_mem_nil
  have hplaced : ∀ l ∈ Code.mentions added, l ∈ Code.labels added := by
    intro l hl
    rcases List.mem_append.mp hl with hl | hl
    · exact hl
    · exact hinside l hl
  have hown : ∀ l ∈ Code.mentions added, l.InGroups g.nextGroup g'.nextGroup :=
    fun l hl => h.mem l (hplaced l hl)
  have hapart : ∀ l ∈ Code.mentions added, l ∉ Code.mentions g.items :=
    fun l hl hbefore => (hg l hbefore).disjoint (hown l hl) (Nat.le_refl _)
  refine ⟨hown, fun l hl => ?_, hinside, hapart⟩
  have hnew : l ∉ Code.labels g.items := fun hl' => hapart l hl (List.mem_append_left _ hl')
  rw [hitems, Code.labels_append, List.count_append, List.count_eq_zero_of_not_mem hnew,
    List.count_eq_one_of_mem h.nodup (hplaced l hl)]

/--
**The pass only adds.** Whatever came of earlier calls and comes of this one, nothing that was
there is taken back or changed. If the call succeeds, what it has added is closed in itself.
-/
theorem generate_appends (calls : List Program) (p : Program) :
    ∃ added, (after calls).Appends ((after calls).generate p).2 added ∧
      (((after calls).generate p).1 = .ok () →
        (after calls).Encloses ((after calls).generate p).2 added) := by
  have hgrows := generate_grows (after calls) p
  obtain ⟨added, hadded⟩ := hgrows.items
  refine ⟨added, ⟨hadded.symm, hgrows.frame.slotted (valid_after calls),
    hgrows.frame.keeps.scanner, hgrows.groups⟩, fun hok => ?_⟩
  obtain ⟨ts, c, hcode, hadds⟩ := generate_emits (Prod.ext hok rfl)
  have hc : c = added := List.append_cancel_left (hadds.items.symm.trans hadded.symm)
  subst hc
  exact encloses_of_linked hcode.linked hadded.symm (tidy_after calls)

/-- Refused within a branch: the label behind the branch is jumped to, but it is never placed. Its
ids are none of the greeting's. -/
def abandoned : Program where
  span := default
  stmts := [
    .declare default "more" (.literal ⟨30, default⟩ (.bool true)),
    .ifThen default (.var ⟨31, default⟩ "more") (.print default (.literal ⟨32, default⟩ .null))]

/-- The greeting behind a program that was refused. -/
theorem generate_appends_abandoned :
    (empty.generate abandoned).1 = .error ⟨.untypedNull, some 0⟩ ∧
    Code.labels (after [abandoned]).items = [.numbered "THEN" 0] ∧
    Code.targets (after [abandoned]).items = [.numbered "END" 0] ∧
    ∃ g added, (after [abandoned]).generate .greeting = (.ok (), g) ∧
      (after [abandoned]).Appends g added ∧ (after [abandoned]).Encloses g added ∧
      g.frame.slotted = [("more", 1), ("name", 2), ("zero", 3)] := by
  refine ⟨by decide +kernel, by decide +kernel, by decide +kernel, ?_⟩
  have hok : ((after [abandoned]).generate .greeting).1 = .ok () := by decide +kernel
  have hslotted : ((after [abandoned]).generate .greeting).2.frame.slotted =
      [("more", 1), ("name", 2), ("zero", 3)] := by decide +kernel
  obtain ⟨added, happends, hencloses⟩ := generate_appends [abandoned] .greeting
  generalize (after [abandoned]).generate .greeting = run at *
  obtain ⟨r, g⟩ := run
  obtain rfl : r = .ok () := hok
  exact ⟨g, added, rfl, happends, hencloses rfl, hslotted⟩

end Generator

end Dam
