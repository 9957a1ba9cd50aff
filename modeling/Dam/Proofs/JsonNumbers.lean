import Dam.Json.Number
import Dam.Proofs.JsonText
import Dam.Proofs.NumberText

/-!
# Numbers as JSON numbers

The texts that are written for natural numbers and for finite binary64 numbers are texts of
JSON numbers. What can go wrong is a needless zero in front: the shortest decimal of a
number other than zero has none, because zero does not round to the number.
-/

namespace Dam

open Json

/-! ## Natural numbers -/

theorem isDigit_of_isDigit {c : Char} (h : c.isDigit = true) : isDigit c = true := by
  simp only [Char.isDigit, Bool.and_eq_true, decide_eq_true_eq] at h
  rw [isDigit_iff]
  exact h

theorem isDigits_toDigits (n : Nat) : IsDigits (Nat.toDigits 10 n) :=
  ⟨Nat.toDigits_ne_nil, fun _ hc =>
    isDigit_of_isDigit (Nat.isDigit_of_mem_toDigits (by decide) (by decide) hc)⟩

/-- Only zero begins with a zero. -/
theorem head?_toDigits {n : Nat} (h : 0 < n) : (Nat.toDigits 10 n).head? ≠ some '0' := by
  induction n using Nat.strongRecOn with
  | ind n ih =>
      by_cases hsmall : n < 10
      · rw [Nat.toDigits_of_lt_base hsmall]
        have hall : ∀ n < 10, 0 < n → [n.digitChar].head? ≠ some '0' := by decide
        exact hall n hsmall h
      · rw [Nat.toDigits_of_base_le (by decide) (by omega),
          List.head?_append_of_ne_nil _ Nat.toDigits_ne_nil]
        exact ih (n / 10) (by omega) (by omega)

theorem isWhole_of_head? {ds : List Char} (h : IsDigits ds) (hhead : ds.head? ≠ some '0') :
    IsWhole ds :=
  ⟨h, fun hzero => absurd hzero hhead⟩

theorem isDigits_zero : IsDigits ['0'] := ⟨List.cons_ne_nil _ _, List.all_eq_true.mp rfl⟩

theorem isWhole_zero : IsWhole ['0'] := ⟨isDigits_zero, fun _ => rfl⟩

theorem isWhole_toDigits (n : Nat) : IsWhole (Nat.toDigits 10 n) := by
  by_cases h : 0 < n
  · exact isWhole_of_head? (isDigits_toDigits n) (head?_toDigits h)
  · obtain rfl : n = 0 := by omega
    exact isWhole_zero

theorem toList_toString (n : Nat) : (toString n).toList = Nat.toDigits 10 n := by
  rw [Nat.toString_eq_ofList_toDigits, String.toList_ofList]

theorem Json.legible_ofNat (n : Nat) : (Json.ofNat n).Legible := by
  rw [Json.ofNat, Legible, toList_toString]
  refine ⟨[], Nat.toDigits 10 n, [], [], ?_, .inl rfl, isWhole_toDigits n, .inl rfl, .inl rfl⟩
  rw [List.nil_append, List.nil_append, List.append_nil]

theorem Json.NumberParts.ofText_toString (n : Nat) :
    NumberParts.ofText (toString n) = ⟨false, Nat.toDigits 10 n, [], none⟩ := by
  obtain ⟨d, ds, hds, hd⟩ := (isDigits_toDigits n).head
  have hsign : d ≠ '-' := by
    rintro rfl
    exact absurd hd (by decide)
  have hrow := (StopsAt.nil isDigit).takeWhile_append (isDigits_toDigits n).2
  rw [List.append_nil] at hrow
  obtain ⟨htake, hdrop⟩ := hrow
  unfold NumberParts.ofText
  rw [toList_toString, hds]
  rw [hds] at htake hdrop
  split
  rename_i negative cs hparts
  split at hparts
  · rename_i heq
    exact absurd (List.cons.inj heq).1 hsign
  · cases hparts
    simp only [htake, hdrop]

/-- **A natural number is read back if it is below the limit.** -/
theorem Json.nat?_ofNat (limit n : Nat) :
    (Json.ofNat n).nat? limit = if n < limit then some n else none := by
  have hvalue : digitsValue (Nat.toDigits 10 n) = n :=
    Nat.ofDigitChars_toDigits (by decide) (by decide)
  unfold Json.ofNat Json.nat?
  simp only [NumberParts.ofText_toString, hvalue, NumberParts.isInteger]
  simp

/-! ## Binary64 numbers -/

namespace Decimal

theorem lowAt_pos {m : Nat} (h : 0 < m) : 0 < lowAt m := by
  have hsize : twoTo 52 = 4503599627370496 := rfl
  have hstep := stepAt_pos m
  have hback : backAt m ≤ 2 * stepAt m := by
    unfold backAt
    split <;> omega
  have hunits : stepAt m ≤ unitsAt m := by
    unfold unitsAt
    refine Nat.le_mul_of_pos_left _ ?_
    rw [hsize]
    split <;> omega
  unfold lowAt
  omega

theorem coefficient_pos (tie : Tie) {x : Binary64} (h : 0 < x.magnitude) :
    0 < (shortest tie x).coefficient := by
  obtain ⟨hlow, _⟩ := (shortest_in tie h).le
  have hdown := tenTo_pos (-(shortest tie x).exponent).toNat
  have hpos : 0 < (intervalOf x).low * tenTo (-(shortest tie x).exponent).toNat :=
    Nat.mul_pos (lowAt_pos h) hdown
  by_contra hcontra
  obtain hzero : (shortest tie x).coefficient = 0 := by omega
  rw [hzero, Nat.zero_mul, Nat.zero_mul] at hlow
  omega

variable {d : Decimal}

theorem isDigits_digits (d : Decimal) : IsDigits d.digits := isDigits_toDigits _

theorem head?_digits (h : 0 < d.coefficient) : d.digits.head? ≠ some '0' := head?_toDigits h

theorem isDigits_append_zeros {ds : List Char} (h : IsDigits ds) (n : Nat) :
    IsDigits (ds ++ List.replicate n '0') := by
  refine ⟨fun hnil => h.1 (List.append_eq_nil_iff.mp hnil).1, fun c hc => ?_⟩
  rcases List.mem_append.mp hc with hc | hc
  · exact h.2 c hc
  · rw [List.eq_of_mem_replicate hc]
    rfl

theorem isDigits_zeros_append {ds : List Char} (h : IsDigits ds) (n : Nat) :
    IsDigits (List.replicate n '0' ++ ds) := by
  refine ⟨fun hnil => h.1 (List.append_eq_nil_iff.mp hnil).2, fun c hc => ?_⟩
  rcases List.mem_append.mp hc with hc | hc
  · rw [List.eq_of_mem_replicate hc]
    rfl
  · exact h.2 c hc

/-- The whole part is one, and the fraction is one if there is any. -/
theorem isWhole_parts (h : 0 < d.coefficient) :
    IsWhole d.parts.1 ∧ (d.parts.2 = [] ∨ IsDigits d.parts.2) := by
  have hdigits := isDigits_digits d
  have hhead := head?_digits h
  have hlength : 0 < d.digits.length := List.length_pos_iff.mpr hdigits.1
  unfold parts
  by_cases hwhole : (-d.exponent).toNat = 0
  · -- zeros behind the digits
    simp only [hwhole, if_true]
    refine ⟨isWhole_of_head? (isDigits_append_zeros hdigits _) ?_, .inl trivial⟩
    rw [List.head?_append_of_ne_nil _ hdigits.1]
    exact hhead
  · simp only [if_neg hwhole]
    by_cases hplaces : (-d.exponent).toNat < d.digits.length
    · -- the point is among the digits
      simp only [if_pos hplaces]
      have htake : d.digits.take (d.digits.length - (-d.exponent).toNat) ≠ [] := by
        rw [Ne, List.take_eq_nil_iff]
        rintro (hnil | hnil)
        · omega
        · exact hdigits.1 hnil
      have hdrop : d.digits.drop (d.digits.length - (-d.exponent).toNat) ≠ [] := by
        rw [Ne, List.drop_eq_nil_iff]
        omega
      refine ⟨isWhole_of_head? ⟨htake, fun c hc => hdigits.2 c (List.mem_of_mem_take hc)⟩ ?_,
        .inr ⟨hdrop, fun c hc => hdigits.2 c (List.mem_of_mem_drop hc)⟩⟩
      rw [List.head?_take, if_neg (by omega)]
      exact hhead
    · -- zeros in front of the digits
      simp only [if_neg hplaces]
      exact ⟨isWhole_zero, .inr (isDigits_zeros_append hdigits _)⟩

theorem isNumber_positionalWithPoint {sign : List Char} (hsign : sign = [] ∨ sign = ['-'])
    (h : 0 < d.coefficient) : IsNumber (sign ++ d.positionalWithPoint) := by
  obtain ⟨hwhole, hfraction⟩ := isWhole_parts h
  unfold positionalWithPoint
  split
  · rename_i whole hparts
    rw [hparts] at hwhole
    exact ⟨sign, whole, ['.', '0'], [], by simp, hsign, hwhole, .inr ⟨_, rfl, isDigits_zero⟩,
      .inl rfl⟩
  · rename_i whole fraction hne hparts
    rw [hparts] at hwhole hfraction
    exact ⟨sign, whole, '.' :: fraction, [], by simp, hsign, hwhole,
      .inr ⟨_, rfl, hfraction.resolve_left hne⟩, .inl rfl⟩

theorem isNumber_scientific {sign : List Char} (hsign : sign = [] ∨ sign = ['-'])
    (h : 0 < d.coefficient) : IsNumber (sign ++ d.scientific) := by
  have hdigits := isDigits_digits d
  have hhead := head?_digits h
  have hexponent : ∀ c, c = '+' ∨ c = '-' →
      IsExponent ('e' :: c :: Nat.toDigits 10 d.leadingExponent.natAbs) := by
    intro c hc
    refine .inr ⟨'e', [c], _, rfl, .inl rfl, .inr ?_, isDigits_toDigits _⟩
    rcases hc with rfl | rfl
    · exact .inl rfl
    · exact .inr rfl
  have hmark : ∀ b : Bool, (if b then '-' else '+') = '+' ∨ (if b then '-' else '+') = '-' := by
    decide
  unfold scientific
  -- one digit needs no point
  split
  · rename_i hnil
    exact absurd hnil hdigits.1
  · rename_i c hone
    rw [hone] at hdigits hhead
    refine ⟨sign, [c], [], _, ?_, hsign, isWhole_of_head? hdigits hhead, .inl rfl,
      hexponent _ (hmark (decide (d.leadingExponent < 0)))⟩
    simp
  · rename_i c cs hne hmore
    rw [hmore] at hdigits hhead
    have hfirst : IsDigits [c] := ⟨by simp, fun e he => hdigits.2 e (by
      rw [List.mem_singleton.mp he]
      exact List.mem_cons_self)⟩
    have hrest : IsDigits cs := ⟨hne, fun e he => hdigits.2 e (List.mem_cons_of_mem _ he)⟩
    refine ⟨sign, [c], '.' :: cs, _, ?_, hsign, isWhole_of_head? hfirst hhead,
      .inr ⟨cs, rfl, hrest⟩, hexponent _ (hmark (decide (d.leadingExponent < 0)))⟩
    simp

end Decimal

/-- **A finite number is written as a JSON number.** -/
theorem Binary64.isNumber_json {x : Binary64} (h : x.isFinite = true) : IsNumber x.json.toList := by
  have hsign : x.signText = [] ∨ x.signText = ['-'] := by
    unfold signText
    split
    · exact .inr rfl
    · exact .inl rfl
  have hfinite : ¬ (!x.isFinite) = true := by
    rw [h]
    decide
  unfold json
  rw [if_neg hfinite]
  by_cases hzero : x.isZero = true
  · rw [if_pos hzero, String.toList_ofList]
    exact ⟨x.signText, ['0'], ['.', '0'], [], rfl, hsign, isWhole_zero,
      .inr ⟨_, rfl, isDigits_zero⟩, .inl rfl⟩
  · have hmagnitude : 0 < x.magnitude := by
      rw [isZero, beq_iff_eq] at hzero
      omega
    have hcoefficient := Decimal.coefficient_pos .toEven hmagnitude
    rw [if_neg hzero]
    simp only [String.toList_ofList]
    split
    · exact Decimal.isNumber_positionalWithPoint hsign hcoefficient
    · exact Decimal.isNumber_scientific hsign hcoefficient

end Dam
