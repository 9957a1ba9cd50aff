import Dam.Proofs.Linkage
import Mathlib.Order.Bounds.Basic

/-!
# The depth of the operand stack

The size of the operand stack is measured in one walk over the text of the code. What
it has to bound is something else: the depth along every path that control can take,
with any number of rounds of every loop. On generated code the two agree, and the bound
is attained.

Two facts carry the argument. All paths to a position have the same depth there, since
the position has one stack of types (`WellTyped.height_eq`). And the walk passes no
position that control cannot reach: it goes on behind a `goto` only at a label that was
jumped to before. `Measured` is the invariant of the walk, `measured_of_flows` its run.
-/

namespace Dam

namespace Code

/-- The depth of the operand stack after the instructions of a history. -/
def height : List Instr → Int
  | [] => 0
  | i :: h => i.effect + height h

@[simp] theorem height_nil : height [] = 0 := rfl

@[simp] theorem height_cons (i : Instr) (h : List Instr) :
    height (i :: h) = i.effect + height h := rfl

section

variable {items : List Item} {A : Nat → List StackType}

/-- **All paths to a position have the same depth there**: the length of its stack of types. -/
theorem WellTyped.height_eq (hA : WellTyped items A) {h : List Instr} {i : Nat}
    (hp : Path items h i) : height h = (A i).length := by
  induction hp with
  | start => simp [hA.start]
  | label _ hi ih => rw [hA.label _ _ hi, ih]
  | fall _ hi hk ih =>
      obtain ⟨σ, hσ, hfall, _⟩ := hA.op _ _ hi
      have hlen := Instr.length_onStack? hσ
      rw [hfall hk, height_cons, ih]
      omega
  | jump _ hi hl hj ih =>
      obtain ⟨σ, hσ, _, hjump⟩ := hA.op _ _ hi
      have hlen := Instr.length_onStack? hσ
      rw [hjump _ _ hl hj, height_cons, ih]
      omega

theorem exists_label_of_mem {l : Label} (h : l ∈ labels items) :
    ∃ j : Nat, items[j]? = some (.label l) :=
  List.mem_iff_getElem?.mp (mem_labels.mp h)

theorem mem_targets {i : Nat} {k : Instr} {l : Label} (hi : items[i]? = some (.op k))
    (hl : k.target? = some l) : l ∈ targets items := by
  have hinstr : k ∈ instrs items :=
    List.mem_filterMap.mpr ⟨.op k, List.mem_of_getElem? hi, rfl⟩
  exact List.mem_filterMap.mpr ⟨k, hinstr, hl⟩

/-- Behind every instruction that is reached, control goes on somewhere. -/
theorem WellTyped.path_after (hA : WellTyped items A) {h : List Instr} {i : Nat} {k : Instr}
    (hp : Path items h i) (hi : items[i]? = some (.op k)) : ∃ j, Path items (k :: h) j := by
  cases hk : k.endsFlow with
  | false => exact ⟨i + 1, hp.fall hi hk⟩
  | true =>
      cases hl : k.target? with
      | none => rw [Instr.endsFlow_of_target? hl] at hk; cases hk
      | some l =>
          obtain ⟨j, hj⟩ := exists_label_of_mem (hA.lands l (mem_targets hi hl))
          exact ⟨j, hp.jump hi hl hj⟩

end

/-! ## What the walk measures -/

namespace Walk

variable {w w' : Walk}

theorem deepest_of_enter {l : Label} {n : Nat} (h : w.enter l n = .ok w') :
    w'.deepest = w.deepest := by
  unfold enter at h
  split at h
  · split at h
    · cases h; rfl
    · cases h
  · cases h; rfl

/-- A label makes no stack deeper. -/
theorem deepest_of_label {l : Label} (h : w.step (.label l) = .ok w') :
    w'.deepest = w.deepest := by
  have hpass : ∀ w₁, w.passLabel l = .ok w₁ → w₁.deepest = w.deepest := by
    intro w₁ h₁
    unfold passLabel at h₁
    split at h₁
    · exact deepest_of_enter h₁
    · cases h₁; rfl
  cases h₁ : w.passLabel l with
  | error e => simp only [step, h₁] at h; cases h
  | ok w₁ => simp only [step, h₁] at h; cases h; exact hpass w₁ h₁

/-- An instruction that leaves `m` words. -/
theorem deepest_of_op {i : Instr} {n m : Nat} (h : w.step (.op i) = .ok w')
    (hn : w.depth = some n) (hm : (n : Int) + i.effect = m) :
    w'.deepest = max w.deepest m := by
  have hpass : ∀ w₁, w.passInstr i = .ok w₁ → w₁.deepest = max w.deepest m := by
    intro w₁ h₁
    unfold passInstr at h₁
    simp only [hn, Option.getD_some, hm, if_neg (show ¬ (m : Int) < 0 by omega),
      Int.toNat_natCast] at h₁
    split at h₁
    · cases h₁; rfl
    · exact deepest_of_enter h₁
  cases h₁ : w.passInstr i with
  | error e => simp only [step, h₁] at h; cases h
  | ok w₁ => simp only [step, h₁] at h; cases h; exact hpass w₁ h₁

end Walk

/--
The walk `w` has passed the items before position `k` and is at the typed point `p`:
control reaches all of them, and `w.deepest` is the greatest depth behind any of them.
-/
structure Measured (items : List Item) (Δ : Label → List StackType) (k : Nat)
    (p : Point (List StackType)) (w : Walk) : Prop where
  /-- Where the walk has a stack, control arrives with a stack of that depth. -/
  here : ∀ σ, p.here = some σ → ∃ h, Path items h k ∧ height h = σ.length
  jumped : ∀ l ∈ p.jumped, ∀ j, items[j]? = some (.label l) →
    ∃ h, Path items h j ∧ height h = (Δ l).length
  passed : ∀ i, i < k → ∃ h, Path items h i
  bound : ∀ i n h, i < k → items[i]? = some (.op n) → Path items h i → height (n :: h) ≤ w.deepest
  attained : ∃ h i, Path items h i ∧ height h = w.deepest

namespace Measured

variable {items : List Item} {A : Nat → List StackType} {Δ : Label → List StackType} {k : Nat}
  {w w' : Walk} {js : List Label}

theorem start : Measured items Δ 0 ⟨some [], []⟩ .start := by
  refine ⟨?_, by simp, by omega, by omega, [], 0, .start, rfl⟩
  rintro _ ⟨⟩
  exact ⟨[], .start, rfl⟩

/-- One more item is passed; only the point behind it and the greatest depth are new. -/
theorem advance {p q : Point (List StackType)} {x : Item} (hm : Measured items Δ k p w)
    (hx : items[k]? = some x) (hk : ∃ h, Path items h k)
    (hhere : ∀ σ, q.here = some σ → ∃ h, Path items h (k + 1) ∧ height h = σ.length)
    (hjumped : ∀ l ∈ q.jumped, ∀ j, items[j]? = some (.label l) →
      ∃ h, Path items h j ∧ height h = (Δ l).length)
    (hle : w.deepest ≤ w'.deepest)
    (hbound : ∀ n h, x = .op n → Path items h k → height (n :: h) ≤ w'.deepest)
    (hattained : ∃ h i, Path items h i ∧ height h = w'.deepest) :
    Measured items Δ (k + 1) q w' := by
  refine ⟨hhere, hjumped, fun i hi => ?_, fun i n h hi hn hp => ?_, hattained⟩
  · rcases Nat.lt_succ_iff_lt_or_eq.mp hi with hlt | rfl
    · exact hm.passed i hlt
    · exact hk
  · rcases Nat.lt_succ_iff_lt_or_eq.mp hi with hlt | rfl
    · have hold := hm.bound i n h hlt hn hp
      omega
    · exact hbound n h (Option.some.inj (hx.symm.trans hn)) hp

/-- A label at which control arrives, with the stack `σ`. -/
theorem label {p : Point (List StackType)} {l : Label} {σ : List StackType}
    (hm : Measured items Δ k p w) (hx : items[k]? = some (.label l)) (hjs : p.jumped = js)
    (hk : ∃ h, Path items h k ∧ height h = σ.length) (hw : w.step (.label l) = .ok w') :
    Measured items Δ (k + 1) ⟨some σ, js⟩ w' := by
  subst hjs
  have hdeepest := Walk.deepest_of_label hw
  obtain ⟨h, hp, hσ⟩ := hk
  refine hm.advance hx ⟨h, hp⟩ ?_ hm.jumped (by omega) (by rintro _ _ ⟨⟩) ?_
  · rintro _ ⟨⟩
    exact ⟨h, hp.label hx, hσ⟩
  · rw [hdeepest]
    exact hm.attained

/-- An instruction that control arrives at. -/
theorem op {i : Instr} {σ σ' : List StackType} (hA : WellTyped items A)
    (hm : Measured items Δ k ⟨some σ, js⟩ w) (hx : items[k]? = some (.op i))
    (hσ : i.onStack? σ = some σ') (hl : ∀ l, i.target? = some l → σ' = Δ l)
    (hdepth : w.depth = some σ.length) (hw : w.step (.op i) = .ok w') :
    Measured items Δ (k + 1) ⟨if i.endsFlow then none else some σ', i.target?.toList ++ js⟩ w' := by
  have hlen := Instr.length_onStack? hσ
  have hdeepest := Walk.deepest_of_op hw hdepth hlen
  obtain ⟨h, hp, hh⟩ := hm.here σ rfl
  have hafter : height (i :: h) = σ'.length := by
    rw [height_cons, hh]
    omega
  refine hm.advance hx ⟨h, hp⟩ ?_ ?_ (by omega) ?_ ?_
  · intro τ hτ
    cases hend : i.endsFlow with
    | true => simp [hend] at hτ
    | false =>
        simp only [hend, Bool.false_eq_true, if_false, Option.some.injEq] at hτ
        subst hτ
        exact ⟨_, hp.fall hx hend, hafter⟩
  · intro l hmem j hj
    rcases List.mem_append.mp hmem with hmem | hmem
    · have ht : i.target? = some l := Option.mem_toList.mp hmem
      exact ⟨_, hp.jump hx ht hj, hl l ht ▸ hafter⟩
    · exact hm.jumped l hmem j hj
  · -- another path to this place comes with the same depth
    rintro n h' ⟨⟩ hp'
    have hsame : height h' = height h := (hA.height_eq hp').trans (hA.height_eq hp).symm
    rw [height_cons] at hafter ⊢
    omega
  · rcases Nat.le_total σ'.length w.deepest with hle | hle
    · rw [hdeepest, Nat.max_eq_left hle]
      exact hm.attained
    · obtain ⟨j, hj⟩ := hA.path_after hp hx
      refine ⟨_, j, hj, ?_⟩
      rw [hafter, hdeepest, Nat.max_eq_right hle]

end Measured

/-- **The walk measures what control does**, over code that has types. -/
theorem measured_of_flows {items c : List Item} {A : Nat → List StackType}
    {Δ : Label → List StackType} {p q : Point (List StackType)} {w : Walk} {k : Nat}
    (hA : WellTyped items A) (h : Flows (fun i σ σ' => i.onStack? σ = some σ') Eq Δ p c q)
    (hat : At items k c) (hw : Follows Δ p w) (hm : Measured items Δ k p w) :
    ∃ w', c.foldlM Walk.step w = .ok w' ∧ Follows Δ q w' ∧
      Measured items Δ (k + c.length) q w' := by
  induction h generalizing w k with
  | nil => exact ⟨w, rfl, hw, hm⟩
  | fall hle _ ih =>
      obtain ⟨w₁, hstep, hw₁⟩ := hw.fall hle
      have hm₁ := hm.label hat.1 rfl (hle ▸ hm.here _ rfl) hstep
      obtain ⟨w₂, hrest, hw₂, hm₂⟩ := ih hat.2 hw₁ hm₁
      exact ⟨w₂, foldlM_step hstep hrest, hw₂, Nat.succ_add_eq_add_succ k _ ▸ hm₂⟩
  | land hl _ ih =>
      obtain ⟨w₁, hstep, hw₁⟩ := hw.land hl
      have hm₁ := hm.label hat.1 rfl (hm.jumped _ hl k hat.1) hstep
      obtain ⟨w₂, hrest, hw₂, hm₂⟩ := ih hat.2 hw₁ hm₁
      exact ⟨w₂, foldlM_step hstep hrest, hw₂, Nat.succ_add_eq_add_succ k _ ▸ hm₂⟩
  | @next d d' js i c q hs ht _ ih =>
      have hl : ∀ l, i.target? = some l → d' = Δ l := by rw [ht]; rintro _ ⟨⟩
      obtain ⟨w₁, hstep, hw₁⟩ := hw.op hs hl
      have hm₁ := hm.op hA hat.1 hs hl hw.depth hstep
      rw [ht, Instr.endsFlow_of_target? ht] at hw₁ hm₁
      obtain ⟨w₂, hrest, hw₂, hm₂⟩ := ih hat.2 hw₁ hm₁
      exact ⟨w₂, foldlM_step hstep hrest, hw₂, Nat.succ_add_eq_add_succ k _ ▸ hm₂⟩
  | @branch d d' js i l c q hs ht hle _ ih =>
      have hl : ∀ l, i.target? = some l → d' = Δ l := by rw [ht]; rintro _ ⟨⟩; exact hle
      obtain ⟨w₁, hstep, hw₁⟩ := hw.op hs hl
      have hm₁ := hm.op hA hat.1 hs hl hw.depth hstep
      rw [ht] at hw₁ hm₁
      obtain ⟨w₂, hrest, hw₂, hm₂⟩ := ih hat.2 hw₁ hm₁
      exact ⟨w₂, foldlM_step hstep hrest, hw₂, Nat.succ_add_eq_add_succ k _ ▸ hm₂⟩

theorem lt_length_of_getElem? {items : List Item} {i : Nat} {x : Item}
    (h : items[i]? = some x) : i < items.length :=
  (List.getElem?_eq_some_iff.mp h).1

/-- What was measured over all items bounds every path. -/
theorem Measured.height_le {items : List Item} {Δ : Label → List StackType}
    {p : Point (List StackType)} {w : Walk} (hm : Measured items Δ items.length p w)
    {h : List Instr} {i : Nat} (hp : Path items h i) : height h ≤ w.deepest := by
  induction hp with
  | start => simp
  | label _ _ ih => exact ih
  | fall hp hi _ _ => exact hm.bound _ _ _ (lt_length_of_getElem? hi) hi hp
  | jump hp hi _ _ _ => exact hm.bound _ _ _ (lt_length_of_getElem? hi) hi hp

end Code

/-! ## Finished code -/

namespace Generator

variable {g : Generator} {p : Program}

theorem finished_measured (h : empty.generate p = (.ok (), g)) :
    ∃ Δ js w, Code.walk g.finishedItems = .ok w ∧
      Code.Measured g.finishedItems Δ g.finishedItems.length ⟨some [], js⟩ w := by
  obtain ⟨A, hA⟩ := finished_wellTyped h
  obtain ⟨Δ, hΔ⟩ := finished_types h
  obtain ⟨js, _, _, hflows⟩ := hΔ []
  have hat : Code.At g.finishedItems 0 g.finishedItems := by
    simpa using Code.at_middle [] g.finishedItems []
  obtain ⟨w, hw, _, hm⟩ := Code.measured_of_flows hA hflows hat .start .start
  exact ⟨Δ, js, w, hw, by simpa using hm⟩

theorem maxStack_of_finish {a : Assembly} {w : Code.Walk} (h : empty.generate p = (.ok (), g))
    (hfin : g.finish = .ok a) (hw : Code.walk g.finishedItems = .ok w) :
    a.maxStack = w.deepest := by
  have hlabels := Code.checkLabels_eq_ok (finished_labels_nodup h) fun l => finished_targets h
  rw [finish_of_walk hlabels hw] at hfin
  split at hfin
  · cases hfin
  · cases hfin; rfl

end Generator

/--
**The size of the operand stack is exact.** It is the greatest depth that a path through
the code attains, and every position of the code, its end included, lies on a path.
-/
theorem Program.maxStack_isGreatest {p : Program} {a : Assembly} (h : p.assemble = .ok a) :
    IsGreatest {n : Int | ∃ h i, Code.Path a.items h i ∧ Code.height h = n} a.maxStack ∧
      (∀ i ≤ a.items.length, ∃ h, Code.Path a.items h i) ∧
      (a.items = [] → a.maxStack = 0) := by
  obtain ⟨g, hgen, hfin⟩ := Program.assemble_eq_ok.mp h
  obtain ⟨Δ, js, w, hw, hm⟩ := Generator.finished_measured hgen
  rw [Generator.items_of_finish hfin, Generator.maxStack_of_finish hgen hfin hw]
  refine ⟨⟨hm.attained, ?_⟩, fun i hi => ?_, fun hnil => ?_⟩
  · rintro n ⟨h, i, hp, rfl⟩
    exact hm.height_le hp
  · rcases Nat.lt_or_eq_of_le hi with hlt | rfl
    · exact hm.passed i hlt
    · obtain ⟨h, hp, _⟩ := hm.here [] rfl
      exact ⟨h, hp⟩
  · rw [hnil] at hw
    cases hw
    rfl

theorem Program.maxStack_isGreatest_greeting :
    ∃ a, greeting.assemble = .ok a ∧ a.maxStack = 3 ∧
      IsGreatest {n : Int | ∃ h i, Code.Path a.items h i ∧ Code.height h = n} 3 ∧
      ∀ i ≤ a.items.length, ∃ h, Code.Path a.items h i := by
  obtain ⟨a, ha⟩ := greeting_assembles
  have hthree : greeting.assemble.toOption.map (·.maxStack) = some 3 := by decide +kernel
  rw [ha] at hthree
  have hmax : a.maxStack = 3 := Option.some.inj hthree
  obtain ⟨hgreatest, hreached, _⟩ := maxStack_isGreatest ha
  rw [hmax] at hgreatest
  exact ⟨a, ha, hmax, hgreatest, hreached⟩

end Dam
