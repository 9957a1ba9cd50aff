import Dam.Proofs.Machine

/-!
# The machine compares as programs do

The machine has no comparisons of values, only of integers. Numbers and strings are first
turned into an integer, and the branch goes the other way when the comparison holds. For
unordered numbers that integer has to be chosen by the comparison. Strings compare by
their UTF-16 units, which determine them.
-/

namespace Dam

/-! ## Integers -/

namespace Comparison

@[simp] theorem ints_negate (k : Comparison) (a b : Int) : k.negate.ints a b = !k.ints a b := by
  cases k <;> simp [negate, ints] <;> grind

/-- An integer on one side of zero stands for an order. -/
theorem ints_zero (k : Comparison) (n : Int) : k.ints n 0 = k.holds (some (compare n 0)) := by
  rcases Int.lt_trichotomy n 0 with h | h | h
  · rw [Int.compare_eq_lt.mpr h]
    cases k <;> simp [ints, holds] <;> grind
  · subst h
    cases k <;> rfl
  · rw [Int.compare_eq_gt.mpr h]
    cases k <;> simp [ints, holds] <;> grind

/-- The instruction that compares two floats suits the comparison. -/
theorem ints_orderInt (k : Comparison) (o : Option Ordering) :
    k.ints (orderInt (if Gen.floatCompare k = .fcmpg then 1 else -1) o) 0 = k.holds o := by
  rcases o with _ | o
  · cases k <;> rfl
  · cases o <;> cases k <;> rfl

theorem ints_bool (k : Comparison) (b c : Bool) :
    k.ints (if b then 1 else 0) (if c then 1 else 0) = k.holds (some (compare b c)) := by
  cases b <;> cases c <;> cases k <;> rfl

end Comparison

/-! ## Strings -/

/-- The difference of two texts is on the side of zero that their order says. -/
theorem compare_unitsDifference (xs ys : List Nat) :
    compare (unitsDifference xs ys) 0 = compare xs ys := by
  induction xs generalizing ys with
  | nil =>
      cases ys with
      | nil => rfl
      | cons y ys =>
          have hneg : unitsDifference [] (y :: ys) < 0 := by
            simp only [unitsDifference, List.length_cons]
            omega
          rw [Int.compare_eq_lt.mpr hneg]
          rfl
  | cons x xs ih =>
      cases ys with
      | nil =>
          rw [Int.compare_eq_gt.mpr (by simp [unitsDifference])]
          rfl
      | cons y ys =>
          rw [unitsDifference, List.compare_cons_cons]
          rcases Nat.lt_trichotomy x y with h | h | h
          · rw [if_neg (Nat.ne_of_lt h), Nat.compare_eq_lt.mpr h, Int.compare_eq_lt.mpr (by omega)]
            rfl
          · rw [if_pos h, Nat.compare_eq_eq.mpr h, ih]
            rfl
          · rw [if_neg (Nat.ne_of_gt h), Nat.compare_eq_gt.mpr h, Int.compare_eq_gt.mpr (by omega)]
            rfl

theorem toNat_ranges (c : Char) :
    (c.toNat < 0xD800 ∨ 0xDFFF < c.toNat) ∧ c.toNat < 0x110000 := by
  rcases c.valid with h | ⟨h, h'⟩
  · have hlt : c.toNat < 0xD800 := h
    omega
  · have hgt : 0xDFFF < c.toNat := h
    have hlt : c.toNat < 0x110000 := h'
    omega

/-- The first character of a text can be read off its units: no character is a surrogate. -/
theorem utf16_append_inj {c d : Char} {us vs : List Nat} (h : utf16 c ++ us = utf16 d ++ vs) :
    c = d ∧ us = vs := by
  have hc := toNat_ranges c
  have hd := toNat_ranges d
  unfold utf16 at h
  dsimp only at h
  -- one unit against two: the single unit would be a surrogate
  split at h <;> split at h
  · simp only [List.cons_append, List.nil_append, List.cons.injEq] at h
    exact ⟨Char.toNat_inj.mp h.1, h.2⟩
  · simp only [List.cons_append, List.nil_append, List.cons.injEq] at h
    omega
  · simp only [List.cons_append, List.nil_append, List.cons.injEq] at h
    omega
  · simp only [List.cons_append, List.nil_append, List.cons.injEq] at h
    exact ⟨Char.toNat_inj.mp (by omega), h.2.2⟩

theorem flatMap_utf16_inj {cs ds : List Char} (h : cs.flatMap utf16 = ds.flatMap utf16) :
    cs = ds := by
  have hne : ∀ c : Char, utf16 c ≠ [] := by
    intro c
    unfold utf16
    dsimp only
    split <;> simp
  induction cs generalizing ds with
  | nil =>
      cases ds with
      | nil => rfl
      | cons d ds =>
          rw [List.flatMap_nil, List.flatMap_cons] at h
          exact absurd (List.append_eq_nil_iff.mp h.symm).1 (hne d)
  | cons c cs ih =>
      cases ds with
      | nil =>
          rw [List.flatMap_nil, List.flatMap_cons] at h
          exact absurd (List.append_eq_nil_iff.mp h).1 (hne c)
      | cons d ds =>
          rw [List.flatMap_cons, List.flatMap_cons] at h
          obtain ⟨rfl, hrest⟩ := utf16_append_inj h
          rw [ih hrest]

theorem utf16Units_inj {s t : String} (h : utf16Units s = utf16Units t) : s = t :=
  String.toList_inj.mp (flatMap_utf16_inj h)

theorem stringOrder_eq_compare (s t : String) :
    stringOrder s t = compare (utf16Units s) (utf16Units t) := by
  unfold stringOrder
  by_cases hst : s = t
  · subst hst
    rw [if_pos rfl]
    exact (Std.LawfulEqCmp.compare_eq_iff_eq.mpr rfl).symm
  · rw [if_neg hst]
    cases hc : compare (utf16Units s) (utf16Units t) with
    | lt => rfl
    | eq => exact absurd (utf16Units_inj (Std.LawfulEqCmp.compare_eq_iff_eq.mp hc)) hst
    | gt => rfl

theorem Comparison.ints_string (k : Comparison) (s t : String) :
    k.ints (unitsDifference (utf16Units s) (utf16Units t)) 0 =
      k.holds (some (stringOrder s t)) := by
  rw [ints_zero, compare_unitsDifference, stringOrder_eq_compare]

end Dam
