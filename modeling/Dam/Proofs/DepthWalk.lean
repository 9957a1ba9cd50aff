import Dam.Proofs.StackDepth
import Mathlib.Data.List.Basic
import Mathlib.Data.Nat.Find

/-!
# What the walk knows about any code

The operand stack is measured by one walk over the text of the code. For generated code the
measure is exact (`Program.maxStack_isGreatest`). This file is about code of any origin, with
labels and jumps in any order.

The walk knows the depth in front of an item if something in front of the item leads there: what
stands directly before it, or a jump. Such places are `Foreseen`. A label that is jumped to from
behind it alone is not foreseen. There the walk goes on with an empty stack, and never learns that
it was wrong (`backDoor_deeper`). As long as control does not jump back to such a label, the
measure bounds every path (`heights_of_maxDepth`).

In code without jumps every place is foreseen. What is left to ask is whether each instruction
finds the words it pops. The walk does not ask that: it compares the words with what an
instruction pops beyond what it pushes (`maxDepth_underflow_iff`).
-/

namespace Dam

namespace Code

/-! ## One step of the walk -/

theorem exists_of_map_ok {ε α β : Type} {x : Except ε α} {f : α → β} {b : β}
    (h : x.map f = .ok b) : ∃ a, x = .ok a ∧ f a = b := by
  cases x with
  | error e => cases h
  | ok a => exact ⟨a, rfl, Except.ok.inj h⟩

namespace Walk

variable {w w' w'' : Walk}

/-- The depth in front of an item, as far as the walk knows it. -/
def depthAt (w : Walk) : Option Item → Option Nat
  | some (.label l) => w.depth.or w.entry[l.name]?
  | _ => w.depth

theorem depthAt_of_depth {n : Nat} (h : w.depth = some n) (x : Option Item) :
    w.depthAt x = some n := by
  unfold depthAt
  split
  · rw [h, Option.some_or]
  · exact h

/-- What was noted before stays as it is, and the greatest depth does not get smaller. -/
structure Grows (w w' : Walk) : Prop where
  entry : ∀ (x : String) (n : Nat), w.entry[x]? = some n → w'.entry[x]? = some n
  deepest : w.deepest ≤ w'.deepest

theorem Grows.refl (w : Walk) : w.Grows w := ⟨fun _ _ h => h, Nat.le_refl _⟩

theorem Grows.trans (h : w.Grows w') (h' : w'.Grows w'') : w.Grows w'' :=
  ⟨fun x n hx => h'.entry x n (h.entry x n hx), Nat.le_trans h.deepest h'.deepest⟩

theorem of_enter {l : Label} {n : Nat} (h : w.enter l n = .ok w') :
    w'.depth = w.depth ∧ w'.entry[l.name]? = some n ∧ w.Grows w' := by
  unfold enter at h
  split at h
  · rename_i noted hnoted
    split at h
    · rename_i heq
      cases h
      exact ⟨rfl, hnoted.trans (congrArg some heq), .refl w⟩
    · cases h
  · rename_i hnone
    cases h
    refine ⟨rfl, by simp, fun x m hx => ?_, Nat.le_refl _⟩
    have hne : l.name ≠ x := by
      rintro rfl
      rw [hnone] at hx
      cases hx
    rw [Std.TreeMap.getElem?_insert,
      if_neg fun hc => hne (Std.LawfulEqCmp.compare_eq_iff_eq.mp hc)]
    exact hx

/-- Behind a label the depth is the one in front of it, and it is noted. -/
theorem of_label {l : Label} (h : w.step (.label l) = .ok w') :
    w'.depth = w.depthAt (some (.label l)) ∧
      (∀ n, w.depthAt (some (.label l)) = some n → w'.entry[l.name]? = some n) ∧ w.Grows w' := by
  obtain ⟨w₁, hw₁, rfl⟩ := exists_of_map_ok (x := w.passLabel l) h
  unfold passLabel at hw₁
  split at hw₁
  · rename_i n hn
    obtain ⟨hdepth, hentry, hgrows⟩ := of_enter hw₁
    have hat := depthAt_of_depth hn (some (.label l))
    refine ⟨hdepth.trans (hn.trans hat.symm), fun m hm => ?_, hgrows.entry, hgrows.deepest⟩
    rw [← hm, hat]
    exact hentry
  · rename_i hn
    cases hw₁
    have hat : w.depthAt (some (.label l)) = w.entry[l.name]? := by
      rw [depthAt, hn, Option.none_or]
    exact ⟨hat.symm, fun n hm => hat.symm.trans hm, fun _ _ hx => hx, Nat.le_refl _⟩

/-- An instruction adds its effect to the depth, and notes the sum where it jumps to. -/
theorem of_op {i : Instr} (h : w.step (.op i) = .ok w') :
    ∃ n : Nat, ((w.depth.getD 0 : Nat) : Int) + i.effect = n ∧
      w'.depth = (if i.endsFlow then none else some n) ∧ n ≤ w'.deepest ∧
      (∀ l, i.target? = some l → w'.entry[l.name]? = some n) ∧ w.Grows w' := by
  obtain ⟨w₁, hw₁, rfl⟩ := exists_of_map_ok (x := w.passInstr i) h
  unfold passInstr at hw₁
  dsimp only at hw₁
  split at hw₁
  · cases hw₁
  · rename_i hnonneg
    refine ⟨_, (Int.toNat_of_nonneg (Int.not_lt.mp hnonneg)).symm, ?_⟩
    split at hw₁
    · rename_i ht
      cases hw₁
      refine ⟨rfl, Nat.le_max_right _ _, fun l hl => ?_, fun _ _ hx => hx, Nat.le_max_left _ _⟩
      rw [ht] at hl
      cases hl
    · rename_i l ht
      obtain ⟨hdepth, hentry, hgrows⟩ := of_enter hw₁
      refine ⟨hdepth, Nat.le_trans (Nat.le_max_right _ _) hgrows.deepest, fun l' hl' => ?_,
        hgrows.entry, Nat.le_trans (Nat.le_max_left _ _) hgrows.deepest⟩
      rw [ht] at hl'
      cases hl'
      exact hentry

theorem grows_of_step {x : Item} (h : w.step x = .ok w') : w.Grows w' := by
  cases x with
  | label l => exact (of_label h).2.2
  | op i =>
      obtain ⟨_, _, _, _, _, hgrows⟩ := of_op h
      exact hgrows

end Walk

/-! ## The whole walk -/

/-- `W i` is the state of the walk in front of position `i`. -/
structure Walked (items : List Item) (W : Nat → Walk) : Prop where
  start : W 0 = .start
  step : ∀ i x, items[i]? = some x → (W i).step x = .ok (W (i + 1))

theorem exists_states {items : List Item} {w w' : Walk}
    (h : items.foldlM Walk.step w = .ok w') :
    ∃ W : Nat → Walk, W 0 = w ∧ W items.length = w' ∧
      ∀ i x, items[i]? = some x → (W i).step x = .ok (W (i + 1)) := by
  induction items generalizing w with
  | nil =>
      cases h
      exact ⟨fun _ => w', rfl, rfl, fun i x hx => by simp at hx⟩
  | cons x items ih =>
      rw [List.foldlM_cons] at h
      cases hx : w.step x with
      | error e => rw [hx] at h; cases h
      | ok w₁ =>
          rw [hx] at h
          obtain ⟨W, hfirst, hlast, hW⟩ := ih h
          refine ⟨factsFrom w W, rfl, hlast, fun i y hy => ?_⟩
          cases i with
          | zero =>
              cases hy
              exact hx.trans (congrArg Except.ok hfirst.symm)
          | succ i => exact hW i y hy

/-- Code that has a depth was walked over from end to end. -/
theorem walked_of_maxDepth {items : List Item} {m : Nat} (h : maxDepth items = .ok m) :
    ∃ W, Walked items W ∧ (W items.length).deepest = m := by
  unfold maxDepth at h
  cases hw : walk items with
  | error e => rw [hw] at h; cases h
  | ok w =>
      rw [hw] at h
      simp only [bind, Except.bind] at h
      split at h
      · cases h
      · obtain ⟨W, hfirst, hlast, hstep⟩ := exists_states hw
        exact ⟨W, ⟨hfirst, hstep⟩, by rw [hlast]; exact Except.ok.inj h⟩

theorem Walked.grows {items : List Item} {W : Nat → Walk} (hW : Walked items W) {i j : Nat}
    (hij : i ≤ j) (hj : j ≤ items.length) : (W i).Grows (W j) := by
  induction j, hij using Nat.le_induction with
  | base => exact .refl _
  | succ j hij ih =>
      have hstep := hW.step j _ (List.getElem?_eq_getElem hj)
      exact (ih (Nat.le_of_succ_le hj)).trans (Walk.grows_of_step hstep)

/-! ## Places that the walk foresees -/

/-- An item in front of position `j` leads there: the one before it, or a jump. -/
inductive Foreseen (items : List Item) : Nat → Prop
  | start : Foreseen items 0
  | label {i : Nat} {l : Label} :
      Foreseen items i → items[i]? = some (.label l) → Foreseen items (i + 1)
  | fall {i : Nat} {k : Instr} :
      items[i]? = some (.op k) → k.endsFlow = false → Foreseen items (i + 1)
  | jump {i j : Nat} {k : Instr} {l : Label} :
      i < j → items[i]? = some (.op k) → k.target? = some l → items[j]? = some (.label l) →
      Foreseen items j

/-- Where control jumps back, it is to a label that is foreseen. -/
def JumpsForeseen (items : List Item) : Prop :=
  ∀ h i k l j, Path items h i → items[i]? = some (.op k) → k.target? = some l →
    items[j]? = some (.label l) → j ≤ i → Foreseen items j

namespace Walked

variable {items : List Item} {W : Nat → Walk} {i j n : Nat} {l : Label}

/-- What a jump has noted is found at its label. -/
theorem noted (hW : Walked items W) (hij : i ≤ j) (hj : items[j]? = some (.label l))
    (hn : (W i).entry[l.name]? = some n) : (W j).depthAt items[j]? = some n := by
  have hnoted := (hW.grows hij (lt_length_of_getElem? hj).le).entry l.name n hn
  obtain ⟨_, hentry, hgrows⟩ := Walk.of_label (hW.step j _ hj)
  rw [hj]
  cases hdepth : (W j).depth with
  | none => rw [Walk.depthAt, hdepth, Option.none_or, hnoted]
  | some m =>
      -- the step notes the depth it comes with, over one that is noted already
      have hcomes := Walk.depthAt_of_depth hdepth (some (.label l))
      have hsame := (hentry m hcomes).symm.trans (hgrows.entry l.name n hnoted)
      exact hcomes.trans hsame

/-- In front of a place that is foreseen the walk knows a depth. -/
theorem known (hW : Walked items W) (hj : Foreseen items j) :
    ∃ n, (W j).depthAt items[j]? = some n := by
  induction hj with
  | start => exact ⟨0, Walk.depthAt_of_depth (by rw [hW.start]; rfl) _⟩
  | label _ hi ih =>
      obtain ⟨n, hn⟩ := ih
      rw [hi] at hn
      have hdepth := (Walk.of_label (hW.step _ _ hi)).1
      exact ⟨n, Walk.depthAt_of_depth (hdepth.trans hn) _⟩
  | fall hi hk =>
      obtain ⟨n, _, hdepth, _⟩ := Walk.of_op (hW.step _ _ hi)
      rw [hk] at hdepth
      exact ⟨n, Walk.depthAt_of_depth hdepth _⟩
  | jump hij hi hl hj =>
      obtain ⟨n, _, _, _, hnoted, _⟩ := Walk.of_op (hW.step _ _ hi)
      exact ⟨n, hW.noted hij hj (hnoted _ hl)⟩

/-- The walk knows the depth in front of position `i` after the history `h`. -/
structure Measures (items : List Item) (W : Nat → Walk) (i : Nat) (h : List Instr) (n : Nat) :
    Prop where
  known : (W i).depthAt items[i]? = some n
  height : height h = n
  le : n ≤ (W items.length).deepest

/-- An instruction in front of which the depth is known. -/
theorem measures_op (hW : Walked items W) {h : List Instr} {k : Instr} {m : Nat}
    (hi : items[i]? = some (.op k)) (hm : Measures items W i h m) :
    ∃ n : Nat, Code.height (k :: h) = n ∧
      (W (i + 1)).depth = (if k.endsFlow then none else some n) ∧
      (∀ l, k.target? = some l → (W (i + 1)).entry[l.name]? = some n) ∧
      n ≤ (W items.length).deepest := by
  obtain ⟨n, hsum, hdepth, hle, hnoted, _⟩ := Walk.of_op (hW.step _ _ hi)
  have hfound : (W i).depth = some m := by
    have hknown := hm.known
    rw [hi] at hknown
    exact hknown
  rw [hfound, Option.getD_some] at hsum
  have hlast := (hW.grows (i := i + 1) (lt_length_of_getElem? hi) (Nat.le_refl _)).deepest
  refine ⟨n, ?_, hdepth, hnoted, Nat.le_trans hle hlast⟩
  rw [height_cons, hm.height]
  omega

/-- **The walk knows the depth of every path**, as long as its jumps back are foreseen. -/
theorem measures_path (hW : Walked items W) (hback : JumpsForeseen items) {h : List Instr}
    (hp : Path items h i) : ∃ n, Measures items W i h n := by
  induction hp with
  | start => exact ⟨0, Walk.depthAt_of_depth (by rw [hW.start]; rfl) _, rfl, Nat.zero_le _⟩
  | label _ hi ih =>
      obtain ⟨n, hn, hheight, hle⟩ := ih
      rw [hi] at hn
      have hdepth := (Walk.of_label (hW.step _ _ hi)).1
      exact ⟨n, Walk.depthAt_of_depth (hdepth.trans hn) _, hheight, hle⟩
  | fall _ hi hk ih =>
      obtain ⟨m, hm⟩ := ih
      obtain ⟨n, hheight, hdepth, _, hle⟩ := hW.measures_op hi hm
      rw [hk] at hdepth
      exact ⟨n, Walk.depthAt_of_depth hdepth _, hheight, hle⟩
  | @jump h i j k l hp hi hl hj ih =>
      obtain ⟨m, hm⟩ := ih
      obtain ⟨n, hheight, _, hnoted, hle⟩ := hW.measures_op hi hm
      refine ⟨n, ?_, hheight, hle⟩
      rcases Nat.lt_or_ge i j with hij | hji
      · exact hW.noted hij hj (hnoted l hl)
      · -- the label was passed with the depth known there, which is still noted at the jump
        obtain ⟨d, hd⟩ := hW.known (hback h i k l j hp hi hl hj hji)
        have hpassed := (Walk.of_label (hW.step j _ hj)).2.1 d (hj ▸ hd)
        have hgrows := hW.grows (Nat.succ_le_succ hji) (lt_length_of_getElem? hi)
        rw [hd, ← hgrows.entry l.name d hpassed, hnoted l hl]

end Walked

/--
**The measure bounds every path**, if control jumps back to foreseen labels only: at every place
the depth is between zero and the measure, and all paths to a place have the same depth there.
-/
theorem heights_of_maxDepth {items : List Item} {m : Nat} (hm : maxDepth items = .ok m)
    (hback : JumpsForeseen items) {h : List Instr} {i : Nat} (hp : Path items h i) :
    0 ≤ height h ∧ height h ≤ m ∧ ∀ h', Path items h' i → height h' = height h := by
  obtain ⟨W, hW, rfl⟩ := walked_of_maxDepth hm
  obtain ⟨n, hn⟩ := hW.measures_path hback hp
  have hheight := hn.height
  have hle := hn.le
  refine ⟨by omega, by omega, fun h' hp' => ?_⟩
  obtain ⟨n', hn'⟩ := hW.measures_path hback hp'
  have hsame : n' = n := Option.some.inj (hn'.known.symm.trans hn.known)
  rw [hn'.height, hheight, hsame]

/-- A loop around a value that stays on the stack. -/
def roundabout : List Item :=
  [.op (.iconst 1), .label ⟨"LOOP"⟩, .op .dup, .op (.ifZero .eq ⟨"END"⟩), .op (.goto ⟨"LOOP"⟩),
    .label ⟨"END"⟩, .op .pop]

theorem heights_of_maxDepth_roundabout :
    maxDepth roundabout = .ok 2 ∧ ∀ h i, Path roundabout h i →
      0 ≤ height h ∧ height h ≤ 2 ∧ ∀ h', Path roundabout h' i → height h' = height h := by
  have hm : maxDepth roundabout = .ok 2 := by decide +kernel
  have hback : JumpsForeseen roundabout := by
    rintro h i k l j _ _ _ hj _
    match j, hj with
    | 1, _ => exact .fall (i := 0) rfl rfl
    | 5, _ => exact .jump (i := 3) (by omega) rfl rfl rfl
    | 0, hj | 2, hj | 3, hj | 4, hj | 6, hj => cases hj
    | j + 7, hj => cases hj
  exact ⟨hm, fun h i hp => heights_of_maxDepth hm hback hp⟩

/-- A label in front of everything that leads to it. Control comes to it with one word. -/
def backDoor : List Item :=
  [.op (.goto ⟨"A"⟩), .label ⟨"B"⟩, .op (.iconst 1), .op (.goto ⟨"C"⟩), .label ⟨"A"⟩,
    .op (.iconst 1), .op (.goto ⟨"B"⟩), .label ⟨"C"⟩]

/-- **The measure is too small** for a label that is jumped to from behind it alone. -/
theorem backDoor_deeper :
    checkLabels backDoor = .ok () ∧ maxDepth backDoor = .ok 1 ∧
      ∃ h i, Path backDoor h i ∧ height h = 2 := by
  refine ⟨by decide +kernel, by decide +kernel, ?_⟩
  have hfront : Path backDoor [.iconst 1, .goto ⟨"A"⟩] 6 :=
    ((Path.start.jump (j := 4) rfl rfl rfl).label rfl).fall rfl rfl
  have hback : Path backDoor [.iconst 1, .goto ⟨"B"⟩, .iconst 1, .goto ⟨"A"⟩] 3 :=
    ((hfront.jump (j := 1) rfl rfl rfl).label rfl).fall rfl rfl
  exact ⟨_, 3, hback, rfl⟩

end Code

/-! ## Code without jumps -/

namespace Instr

/-- The words that an instruction takes from the operand stack. -/
def pops : Instr → Nat
  | ldcFloat _ | ldcString _ | iconst _ | load _ _ | loadRef _ | new _ | getStatic _ _ | goto _ => 0
  | store _ _ | storeRef _ | pop | dup | fneg | ifZero _ _ => 1
  | arith _ | ixor | fcmpl | fcmpg | ifInts _ _ => 2
  | invokeVirtual m | invokeSpecial m => m.argumentWords + 1

/-- The words that an instruction puts on the operand stack. -/
def pushes : Instr → Nat
  | ldcFloat _ | ldcString _ | iconst _ | load _ _ | loadRef _ | new _ | getStatic _ _ => 1
  | store _ _ | storeRef _ | pop | ifZero _ _ | ifInts _ _ | goto _ => 0
  | dup => 2
  | fneg | arith _ | ixor | fcmpl | fcmpg => 1
  | invokeVirtual m | invokeSpecial m => m.resultWords

/-- What an instruction takes beyond what it puts back. -/
def loss (i : Instr) : Int := i.pops - i.pushes

theorem effect_eq_neg_loss (i : Instr) : i.effect = -i.loss := by
  cases i with
  | invokeVirtual m | invokeSpecial m =>
      simp only [effect, loss, pops, pushes, Method.effect]
      omega
  | _ => rfl

theorem loss_le_pops (i : Instr) : i.loss ≤ i.pops := by
  unfold loss
  omega

end Instr

namespace Code

theorem height_append (h h' : List Instr) : height (h ++ h') = height h + height h' := by
  induction h with
  | nil => simp
  | cons i h ih =>
      rw [List.cons_append, height_cons, height_cons, ih]
      omega

/-- The words on the operand stack in front of an instruction of code without jumps. -/
def wordsAt (is : List Instr) (k : Nat) : Int := height (is.take k).reverse

@[simp] theorem wordsAt_zero (is : List Instr) : wordsAt is 0 = 0 := rfl

@[simp] theorem wordsAt_cons_succ (i : Instr) (is : List Instr) (k : Nat) :
    wordsAt (i :: is) (k + 1) = i.effect + wordsAt is k := by
  unfold wordsAt
  rw [List.take_succ_cons, List.reverse_cons, height_append, height_cons, height_nil]
  omega

/--
Instruction `k`, which is `i`, is the first that finds fewer words than it needs, if there are
`n` words in front of the code.
-/
structure FirstShort (need : Instr → Int) (n : Int) (is : List Instr) (k : Nat) (i : Instr) :
    Prop where
  found : is[k]? = some i
  short : n + wordsAt is k < need i
  before : ∀ j i', j < k → is[j]? = some i' → need i' ≤ n + wordsAt is j

namespace FirstShort

variable {need : Instr → Int} {n : Int} {x i : Instr} {is : List Instr} {k : Nat}

theorem cons_zero : FirstShort need n (x :: is) 0 i ↔ i = x ∧ n < need x := by
  constructor
  · rintro ⟨hfound, hshort, _⟩
    cases hfound
    exact ⟨rfl, by simpa using hshort⟩
  · rintro ⟨rfl, hshort⟩
    exact ⟨rfl, by simpa using hshort, fun j i' hj => absurd hj (Nat.not_lt_zero j)⟩

theorem cons_succ : FirstShort need n (x :: is) (k + 1) i ↔
    need x ≤ n ∧ FirstShort need (n + x.effect) is k i := by
  constructor
  · rintro ⟨hfound, hshort, hbefore⟩
    refine ⟨by simpa using hbefore 0 x (Nat.zero_lt_succ k) rfl, hfound, ?_, fun j i' hj hi' => ?_⟩
    · rw [wordsAt_cons_succ] at hshort
      omega
    · have hneed := hbefore (j + 1) i' (Nat.succ_lt_succ hj) hi'
      rw [wordsAt_cons_succ] at hneed
      omega
  · rintro ⟨hx, hfound, hshort, hbefore⟩
    refine ⟨hfound, ?_, fun j i' hj hi' => ?_⟩
    · rw [wordsAt_cons_succ]
      omega
    · cases j with
      | zero =>
          cases hi'
          simpa using hx
      | succ j =>
          have hneed := hbefore j i' (Nat.lt_of_succ_lt_succ hj) hi'
          rw [wordsAt_cons_succ]
          omega

/-- If some instruction finds too few words, there is a first one, at or before it. -/
theorem exists_of_short {j : Nat} (hj : is[j]? = some x) (hshort : n + wordsAt is j < need x) :
    ∃ k ≤ j, ∃ i, FirstShort need n is k i := by
  classical
  have hex : ∃ k i, is[k]? = some i ∧ n + wordsAt is k < need i := ⟨j, x, hj, hshort⟩
  obtain ⟨i, hi, hs⟩ := Nat.find_spec hex
  refine ⟨Nat.find hex, Nat.find_min' hex ⟨x, hj, hshort⟩, i, hi, hs, fun k i' hk hi' => ?_⟩
  exact Int.not_lt.mp fun hlt => Nat.find_min hex hk ⟨i', hi', hlt⟩

end FirstShort

/-- An instruction that jumps nowhere, in front of which there are `n` words. -/
theorem Walk.step_op {w : Walk} {i : Instr} {n : Nat} (hn : w.depth = some n)
    (ht : i.target? = none) :
    w.step (.op i) = if n < i.loss then .error (.underflow w.index i) else
      .ok ⟨w.index + 1, some (n + i.effect).toNat, w.entry, max w.deepest (n + i.effect).toNat⟩ := by
  have hiff : (n : Int) + i.effect < 0 ↔ n < i.loss := by
    rw [i.effect_eq_neg_loss]
    omega
  simp only [step, passInstr, hn, Option.getD_some, ht, Instr.endsFlow_of_target? ht, hiff]
  split <;> rfl

/-- The walk over code without jumps fails at the first instruction that takes too much. -/
theorem foldlM_eq_error_iff {is : List Instr} (hs : ∀ i ∈ is, i.target? = none) {w : Walk}
    {n : Nat} (hn : w.depth = some n) (e : LinkError) :
    (is.map Item.op).foldlM Walk.step w = .error e ↔
      ∃ k i, e = .underflow (w.index + k) i ∧ FirstShort Instr.loss n is k i := by
  induction is generalizing w n with
  | nil =>
      constructor
      · intro h
        cases h
      · rintro ⟨k, i, _, hfirst⟩
        cases hfirst.found
  | cons x is ih =>
      rw [List.map_cons, List.foldlM_cons, Walk.step_op hn (hs x List.mem_cons_self)]
      have hrest : ∀ i ∈ is, i.target? = none := fun i hi => hs i (List.mem_cons_of_mem _ hi)
      by_cases hshort : n < x.loss
      · rw [if_pos hshort]
        constructor
        · rintro h
          cases h
          exact ⟨0, x, rfl, FirstShort.cons_zero.mpr ⟨rfl, hshort⟩⟩
        · rintro ⟨k, i, rfl, hfirst⟩
          cases k with
          | zero =>
              obtain ⟨rfl, _⟩ := FirstShort.cons_zero.mp hfirst
              rfl
          | succ k =>
              have henough := (FirstShort.cons_succ.mp hfirst).1
              omega
      · rw [if_neg hshort]
        have heffect : ((n + x.effect).toNat : Int) = n + x.effect := by
          have := x.effect_eq_neg_loss
          omega
        have hnext := ih hrest (w := ⟨w.index + 1, some (n + x.effect).toNat, w.entry,
          max w.deepest (n + x.effect).toNat⟩) rfl
        rw [heffect] at hnext
        refine hnext.trans ⟨?_, ?_⟩
        · rintro ⟨k, i, rfl, hfirst⟩
          refine ⟨k + 1, i, by rw [Nat.add_assoc, Nat.add_comm 1 k],
            FirstShort.cons_succ.mpr ⟨Int.not_lt.mp hshort, hfirst⟩⟩
        · rintro ⟨k, i, rfl, hfirst⟩
          cases k with
          | zero => exact absurd (FirstShort.cons_zero.mp hfirst).2 hshort
          | succ k =>
              refine ⟨k, i, by rw [Nat.add_assoc, Nat.add_comm 1 k], ?_⟩
              exact (FirstShort.cons_succ.mp hfirst).2

theorem maxDepth_eq_underflow {items : List Item} {k : Nat} {i : Instr} :
    maxDepth items = .error (.underflow k i) ↔ walk items = .error (.underflow k i) := by
  unfold maxDepth
  cases walk items with
  | error e => simp only [bind, Except.bind, Except.error.injEq]
  | ok w =>
      simp only [bind, Except.bind]
      split <;> simp

/--
**Underflow in code without jumps.** It is reported if and only if some instruction finds fewer
words than it takes beyond what it puts back, and for the first such instruction. What is
reported is an underflow: at or before that place an instruction finds fewer words than it pops.
-/
theorem maxDepth_underflow_iff {is : List Instr} (hs : ∀ i ∈ is, i.target? = none) :
    ((∃ k i, maxDepth (is.map .op) = .error (.underflow k i)) ↔
        ∃ k i, is[k]? = some i ∧ wordsAt is k < i.loss) ∧
      ∀ k i, maxDepth (is.map .op) = .error (.underflow k i) →
        FirstShort Instr.loss 0 is k i ∧
          ∃ j ≤ k, ∃ i', FirstShort (fun i => i.pops) 0 is j i' := by
  have hiff : ∀ k i, maxDepth (is.map .op) = .error (.underflow k i) ↔
      FirstShort Instr.loss 0 is k i := by
    intro k i
    rw [maxDepth_eq_underflow, walk, foldlM_eq_error_iff hs (n := 0) rfl]
    constructor
    · rintro ⟨k', i', he, hfirst⟩
      simp only [Walk.start, Nat.zero_add, LinkError.underflow.injEq] at he
      obtain ⟨rfl, rfl⟩ := he
      exact hfirst
    · intro hfirst
      exact ⟨k, i, by rw [Walk.start, Nat.zero_add], hfirst⟩
  refine ⟨⟨?_, ?_⟩, fun k i h => ?_⟩
  · rintro ⟨k, i, h⟩
    have hfirst := (hiff k i).mp h
    have hshort := hfirst.short
    exact ⟨k, i, hfirst.found, by omega⟩
  · rintro ⟨k, i, hk, hshort⟩
    have hless : 0 + wordsAt is k < Instr.loss i := by omega
    obtain ⟨j, _, i', hfirst⟩ := FirstShort.exists_of_short hk hless
    exact ⟨j, i', (hiff j i').mpr hfirst⟩
  · have hfirst := (hiff k i).mp h
    have hshort := hfirst.short
    have hpops := i.loss_le_pops
    exact ⟨hfirst, FirstShort.exists_of_short hfirst.found (by omega)⟩

/-- The sum of one word leaves a word for nothing, so what is reported is the `pop` behind it. -/
theorem maxDepth_underflow_iff_late :
    maxDepth ([.iconst 1, .arith .add, .pop].map .op) = .error (.underflow 2 .pop) ∧
      FirstShort Instr.loss 0 [.iconst 1, .arith .add, .pop] 2 .pop ∧
      ∃ j ≤ 2, ∃ i, FirstShort (fun i => i.pops) 0 [.iconst 1, .arith .add, .pop] j i := by
  have herror : maxDepth ([.iconst 1, .arith .add, .pop].map .op) =
      .error (.underflow 2 .pop) := by decide +kernel
  have hs : ∀ i ∈ [Instr.iconst 1, .arith .add, .pop], i.target? = none := by decide
  exact ⟨herror, (maxDepth_underflow_iff hs).2 2 .pop herror⟩

/-- **A missing word goes unnoticed** if the instruction puts as many words back. -/
theorem dup_unnoticed :
    FirstShort (fun i => i.pops) 0 [.dup] 0 .dup ∧ maxDepth ([Instr.dup].map .op) = .ok 1 :=
  ⟨FirstShort.cons_zero.mpr ⟨rfl, by decide⟩, by decide +kernel⟩

end Code

end Dam
