import Dam.Code.Constant
import Std.Data.String.ToNat
import Mathlib.Data.List.Basic
import Mathlib.Tactic.Ring

/-!
# Texts of numbers

The text of a constant determines the number. What is written is a decimal in the interval
of reals that round to the number. The intervals of neighbours meet in one point, which
belongs to the one with the even significand, so no decimal lies in the intervals of two
magnitudes. Sign, digits and point are all that the text has, and they give back the sign
and the decimal.
-/

namespace Dam

theorem twoTo_pos (n : Nat) : 0 < twoTo n := Nat.pow_pos (by decide)

theorem twoTo_succ (n : Nat) : twoTo (n + 1) = 2 * twoTo n := Nat.mul_comm _ _

theorem tenTo_pos (n : Nat) : 0 < tenTo n := Nat.pow_pos (by decide)

/-- Sign and magnitude make up the pattern. -/
theorem Binary64.eq_of_magnitude {x y : Binary64} (hs : x.isNegative = y.isNegative)
    (hm : x.magnitude = y.magnitude) : x = y := by
  have hbound : twoTo 63 = 9223372036854775808 := rfl
  have hx := x.bits.toNat_lt
  have hy := y.bits.toNat_lt
  unfold isNegative at hs
  unfold magnitude at hm
  rw [hbound, Bool.eq_iff_iff, beq_iff_eq, beq_iff_eq] at hs
  rw [hbound] at hm
  have hbits : x.bits.toNat = y.bits.toNat := by omega
  cases x
  cases y
  exact congrArg Binary64.mk (UInt64.toNat_inj.mp hbits)

namespace Decimal

/-! ## Intervals of neighbours -/

/-- The gap above the number of a magnitude pattern, in units. -/
def stepAt (m : Nat) : Nat := twoTo (m / twoTo 52 - 1)

/-- The number of a magnitude pattern, in units. -/
def unitsAt (m : Nat) : Nat :=
  (if m / twoTo 52 = 0 then m % twoTo 52 else twoTo 52 + m % twoTo 52) * stepAt m

/-- Twice the gap below the number of a magnitude pattern, in units. -/
def backAt (m : Nat) : Nat :=
  if m % twoTo 52 = 0 ∧ 1 < m / twoTo 52 then stepAt m else 2 * stepAt m

/-- The lower end of the interval of a magnitude pattern. -/
def lowAt (m : Nat) : Nat := 4 * unitsAt m - backAt m

/-- The upper end of the interval of a magnitude pattern. -/
def highAt (m : Nat) : Nat := 4 * unitsAt m + 2 * stepAt m

theorem low_intervalOf (x : Binary64) : (intervalOf x).low = lowAt x.magnitude := rfl

theorem high_intervalOf (x : Binary64) : (intervalOf x).high = highAt x.magnitude := rfl

/-- The significand is even if the pattern is. -/
theorem closed_intervalOf (x : Binary64) :
    (intervalOf x).closed = true ↔ x.magnitude % 2 = 0 := by
  have hsize : twoTo 52 = 4503599627370496 := rfl
  have hparity : x.significand % 2 = x.magnitude % 2 := by
    unfold Binary64.significand Binary64.fraction
    rw [hsize]
    split <;> omega
  show (x.significand % 2 == 0) = true ↔ _
  rw [hparity, beq_iff_eq]

theorem stepAt_pos (m : Nat) : 0 < stepAt m := twoTo_pos _

theorem lowAt_le (m : Nat) : lowAt m ≤ 4 * unitsAt m := Nat.sub_le _ _

theorem lt_highAt (m : Nat) : 4 * unitsAt m < highAt m := by
  have := stepAt_pos m
  unfold highAt
  omega

theorem lowAt_lt {m : Nat} (h : 0 < m) : lowAt m < 4 * unitsAt m := by
  have hstep := stepAt_pos m
  have hunits : 0 < unitsAt m := by
    have hsize : twoTo 52 = 4503599627370496 := rfl
    refine Nat.mul_pos ?_ hstep
    rw [hsize]
    split <;> omega
  unfold lowAt backAt
  split <;> omega

-- A pattern counts fractions, and carries into the exponent: then the scale doubles,
-- unless it is the smallest one.

theorem carry_cases (m : Nat) :
    ((m + 1) / twoTo 52 = m / twoTo 52 ∧ (m + 1) % twoTo 52 = m % twoTo 52 + 1) ∨
      ((m + 1) / twoTo 52 = m / twoTo 52 + 1 ∧ (m + 1) % twoTo 52 = 0 ∧
        m % twoTo 52 = twoTo 52 - 1) := by
  have hsize : twoTo 52 = 4503599627370496 := rfl
  rw [hsize]
  omega

/-- The next number is one gap away. -/
theorem unitsAt_succ (m : Nat) : unitsAt (m + 1) = unitsAt m + stepAt m := by
  have hsize := twoTo_pos 52
  unfold unitsAt stepAt
  rcases carry_cases m with ⟨hfield, hfraction⟩ | ⟨hfield, hfraction, hfull⟩
  · rw [hfield, hfraction, ← Nat.succ_mul]
    split <;> rfl
  · rw [hfield, hfraction, hfull, if_neg (Nat.succ_ne_zero _), ← Nat.succ_mul]
    cases m / twoTo 52 with
    | zero =>
        rw [if_pos rfl, Nat.succ_eq_add_one, Nat.sub_add_cancel hsize]
        rfl
    | succ e =>
        have hscale : twoTo (e + 1 + 1 - 1) = 2 * twoTo (e + 1 - 1) := twoTo_succ e
        have hdouble : twoTo 52 + (twoTo 52 - 1) + 1 = (twoTo 52 + 0) * 2 := by omega
        rw [if_neg (Nat.succ_ne_zero _), hscale, ← Nat.mul_assoc, ← hdouble]

theorem backAt_succ (m : Nat) : backAt (m + 1) = 2 * stepAt m := by
  unfold backAt stepAt
  rcases carry_cases m with ⟨hfield, hfraction⟩ | ⟨hfield, hfraction, _⟩
  · rw [hfield, hfraction, if_neg (by omega)]
  · rw [hfield, hfraction]
    cases m / twoTo 52 with
    | zero => rfl
    | succ e =>
        rw [if_pos ⟨rfl, by omega⟩]
        exact twoTo_succ e

/-- The intervals of neighbours meet. -/
theorem lowAt_succ (m : Nat) : lowAt (m + 1) = highAt m := by
  unfold lowAt highAt
  rw [unitsAt_succ, backAt_succ]
  omega

/-- Intervals are in the order of the patterns. -/
theorem highAt_le {m m' : Nat} (h : m < m') : highAt m ≤ lowAt m' := by
  induction h with
  | refl => exact Nat.le_of_eq (lowAt_succ m).symm
  | @step k _ ih =>
      have := lowAt_le k
      have := lt_highAt k
      rw [lowAt_succ k]
      omega

/-! ## Decimals in an interval -/

/-- The number `n / q` is one of the reals of an interval. -/
def Interval.Holds (i : Interval) (n q : Nat) : Prop :=
  if i.closed then i.low * q ≤ n * quartersPerOne ∧ n * quartersPerOne ≤ i.high * q
  else i.low * q < n * quartersPerOne ∧ n * quartersPerOne < i.high * q

namespace Interval

variable {i : Interval} {n n' q q' : Nat}

theorem Holds.le (h : i.Holds n q) :
    i.low * q ≤ n * quartersPerOne ∧ n * quartersPerOne ≤ i.high * q := by
  unfold Holds at h
  split at h
  · exact h
  · exact ⟨Nat.le_of_lt h.1, Nat.le_of_lt h.2⟩

theorem Holds.lt (h : i.Holds n q) (hopen : i.closed = false) :
    i.low * q < n * quartersPerOne ∧ n * quartersPerOne < i.high * q := by
  unfold Holds at h
  rw [hopen] at h
  exact h

theorem holds_of_lt (h : i.low * q < n * quartersPerOne)
    (h' : n * quartersPerOne < i.high * q) : i.Holds n q := by
  unfold Holds
  split
  · exact ⟨Nat.le_of_lt h, Nat.le_of_lt h'⟩
  · exact ⟨h, h'⟩

/-- Only the ratio matters. -/
theorem Holds.of_ratio (h : i.Holds n q) (hratio : n * q' = n' * q) (hq : 0 < q)
    (hq' : 0 < q') : i.Holds n' q' := by
  have hscaled : n * quartersPerOne * q' = n' * quartersPerOne * q := by
    rw [Nat.mul_right_comm, hratio, Nat.mul_right_comm]
  have hlow : i.low * q * q' = i.low * q' * q := Nat.mul_right_comm _ _ _
  have hhigh : i.high * q * q' = i.high * q' * q := Nat.mul_right_comm _ _ _
  unfold Holds at h ⊢
  split at h
  · rw [if_pos ‹_›]
    refine ⟨Nat.le_of_mul_le_mul_right ?_ hq, Nat.le_of_mul_le_mul_right ?_ hq⟩
    · rw [← hlow, ← hscaled]
      exact Nat.mul_le_mul_right q' h.1
    · rw [← hhigh, ← hscaled]
      exact Nat.mul_le_mul_right q' h.2
  · rw [if_neg ‹_›]
    refine ⟨Nat.lt_of_mul_lt_mul_right (a := q) ?_, Nat.lt_of_mul_lt_mul_right (a := q) ?_⟩
    · rw [← hlow, ← hscaled]
      exact Nat.mul_lt_mul_of_pos_right h.1 hq'
    · rw [← hhigh, ← hscaled]
      exact Nat.mul_lt_mul_of_pos_right h.2 hq'

end Interval

/-- A decimal does not lie in the intervals of two magnitudes, one above the other. -/
theorem not_lt_of_holds {x y : Binary64} {n q : Nat} (hq : 0 < q)
    (hx : (intervalOf x).Holds n q) (hy : (intervalOf y).Holds n q) :
    ¬ x.magnitude < y.magnitude := by
  intro hlt
  have hmeet : highAt x.magnitude * q ≤ lowAt y.magnitude * q :=
    Nat.mul_le_mul_right q (highAt_le hlt)
  have hbelow := hx.le.2
  have habove := hy.le.1
  rw [high_intervalOf] at hbelow
  rw [low_intervalOf] at habove
  by_cases hnext : y.magnitude = x.magnitude + 1
  · -- the point where neighbours meet is not in the interval of the odd one
    by_cases hodd : (intervalOf x).closed = true
    · have hopen : (intervalOf y).closed = false := by
        rw [Bool.eq_false_iff]
        intro heven
        rw [closed_intervalOf] at hodd heven
        omega
      have := (hy.lt hopen).1
      rw [low_intervalOf] at this
      omega
    · have := (hx.lt (Bool.eq_false_iff.mpr hodd)).2
      rw [high_intervalOf] at this
      omega
  · have hgap : highAt x.magnitude < lowAt y.magnitude := by
      have hstep := highAt_le (show x.magnitude + 1 < y.magnitude by omega)
      have := lowAt_succ x.magnitude
      have := lowAt_le (x.magnitude + 1)
      have := lt_highAt (x.magnitude + 1)
      omega
    have := Nat.mul_lt_mul_of_pos_right hgap hq
    omega

theorem magnitude_eq_of_holds {x y : Binary64} {n q : Nat} (hq : 0 < q)
    (hx : (intervalOf x).Holds n q) (hy : (intervalOf y).Holds n q) :
    x.magnitude = y.magnitude := by
  have := not_lt_of_holds hq hx hy
  have := not_lt_of_holds hq hy hx
  omega

/-! ## The shortest decimal -/

/-- The decimal lies in the interval. -/
def In (d : Decimal) (i : Interval) : Prop :=
  i.Holds (d.coefficient * tenTo d.exponent.toNat) (tenTo (-d.exponent).toNat)

theorem in_of_onGrid? {tie : Tie} {i : Interval} {k : Int} {c : Nat}
    (h : onGrid? tie i k = some c) : In ⟨c, k⟩ i := by
  have hinside : ∀ n : Nat, (if i.closed then
      i.low * tenTo (-k).toNat ≤ n * (quartersPerOne * tenTo k.toNat) &&
        n * (quartersPerOne * tenTo k.toNat) ≤ i.high * tenTo (-k).toNat
      else i.low * tenTo (-k).toNat < n * (quartersPerOne * tenTo k.toNat) &&
        n * (quartersPerOne * tenTo k.toNat) < i.high * tenTo (-k).toNat) = true →
      In ⟨n, k⟩ i := by
    intro n hn
    have hscale : n * tenTo k.toNat * quartersPerOne = n * (quartersPerOne * tenTo k.toNat) := by
      ring
    unfold In Interval.Holds
    rw [hscale]
    split
    · simpa [*] using hn
    · simpa [*] using hn
  -- whichever neighbour is taken, it was found to be inside
  unfold onGrid? at h
  dsimp only at h
  split at h
  · cases h
  · rename_i hbelow _
    cases h
    exact hinside _ hbelow
  · rename_i _ habove
    cases h
    exact hinside _ habove
  · rename_i hbelow habove
    split at h
    · cases h
      exact hinside _ hbelow
    · split at h
      · cases h
        exact hinside _ habove
      · split at h
        · cases h
          exact hinside _ habove
        · cases h
          split
          · exact hinside _ hbelow
          · exact hinside _ habove

/-- A unit is `5 ^ 1074 * 10 ^ -1074`. -/
theorem units_of_tenTo (u n : Nat) :
    u * Nat.pow 5 n * tenTo 0 * (4 * twoTo n) = 4 * u * tenTo n := by
  have hten : tenTo n = Nat.pow 5 n * twoTo n := Nat.mul_pow 5 2 n
  rw [hten, show tenTo 0 = 1 from rfl]
  ring

/-- The number itself lies in its interval. -/
theorem exact_in {x : Binary64} (h : 0 < x.magnitude) : In (exact x) (intervalOf x) := by
  have hvalue : x.units * Nat.pow 5 1074 * tenTo 0 * quartersPerOne =
      4 * x.units * tenTo 1074 := by
    unfold quartersPerOne
    -- no power is to be computed
    generalize 1074 = n
    exact units_of_tenTo x.units n
  have hscale : 0 < tenTo 1074 := tenTo_pos _
  refine Interval.holds_of_lt ?_ ?_
  · show lowAt x.magnitude * tenTo 1074 < x.units * Nat.pow 5 1074 * tenTo 0 * quartersPerOne
    rw [hvalue]
    exact Nat.mul_lt_mul_of_pos_right (lowAt_lt h) hscale
  · show x.units * Nat.pow 5 1074 * tenTo 0 * quartersPerOne < highAt x.magnitude * tenTo 1074
    rw [hvalue]
    exact Nat.mul_lt_mul_of_pos_right (lt_highAt x.magnitude) hscale

theorem search_in {tie : Tie} {i : Interval} {other : Decimal} (h : other.In i) (steps : Nat)
    (k : Int) : (search tie i other steps k).In i := by
  induction steps generalizing k with
  | zero => exact h
  | succ steps ih =>
      rw [search]
      split
      · rename_i c hc
        exact in_of_onGrid? hc
      · exact ih (k - 1)

theorem shortest_in (tie : Tie) {x : Binary64} (h : 0 < x.magnitude) :
    (shortest tie x).In (intervalOf x) :=
  search_in (exact_in h) _ _

/-! ## Digits and point -/

theorem digitsValue_digits (d : Decimal) : digitsValue d.digits = d.coefficient :=
  Nat.ofDigitChars_toDigits (by decide) (by decide)

theorem digitsValue_append (cs ds : List Char) :
    digitsValue (cs ++ ds) = Nat.ofDigitChars 10 ds (digitsValue cs) :=
  Nat.ofDigitChars_append 0

theorem digitsValue_append_zeros (cs : List Char) (n : Nat) :
    digitsValue (cs ++ List.replicate n '0') = tenTo n * digitsValue cs := by
  rw [digitsValue_append, Nat.ofDigitChars_replicate_zero]
  rfl

theorem digitsValue_zeros_append (n : Nat) (ds : List Char) :
    digitsValue (List.replicate n '0' ++ ds) = digitsValue ds := by
  have hzeros : digitsValue (List.replicate n '0') = 0 := by
    have := digitsValue_append_zeros [] n
    rwa [List.nil_append, show digitsValue [] = 0 from rfl, Nat.mul_zero] at this
  rw [digitsValue_append, hzeros]
  rfl

/-- Whole part and fraction have the value of the decimal. -/
theorem digitsValue_parts (d : Decimal) :
    digitsValue (d.parts.1 ++ d.parts.2) * tenTo (-d.exponent).toNat =
      d.coefficient * tenTo d.exponent.toNat * tenTo d.parts.2.length := by
  have hdigits := digitsValue_digits d
  unfold parts
  dsimp only
  -- zeros behind the digits, a point among them, or zeros in front of them
  split
  · rename_i hplaces
    rw [List.append_nil, digitsValue_append_zeros, hdigits, hplaces, List.length_nil,
      Nat.mul_comm (tenTo _)]
  · rename_i hplaces
    have hwhole : d.exponent.toNat = 0 := by omega
    rw [hwhole, show tenTo 0 = 1 from rfl, Nat.mul_one]
    split
    · rename_i hlt
      rw [List.take_append_drop, hdigits, List.length_drop]
      congr 2
      omega
    · rename_i hle
      rw [← List.append_assoc, ← List.replicate_one, List.replicate_append_replicate,
        digitsValue_zeros_append, hdigits, List.length_append, List.length_replicate]
      congr 2
      omega

theorem isDigit_of_parts (d : Decimal) : ∀ c ∈ d.parts.1 ++ d.parts.2, c.isDigit = true := by
  have hdigits : ∀ c ∈ d.digits, c.isDigit = true := by
    intro c hc
    exact Nat.isDigit_of_mem_toDigits (by decide) (by decide) hc
  have hzeros : ∀ n, ∀ c ∈ List.replicate n '0', c.isDigit = true := by
    intro n c hc
    rw [List.eq_of_mem_replicate hc]
    rfl
  unfold parts
  dsimp only
  split
  · rw [List.append_nil]
    exact List.forall_mem_append.mpr ⟨hdigits, hzeros _⟩
  · split
    · rw [List.take_append_drop]
      exact hdigits
    · rw [← List.append_assoc, ← List.replicate_one]
      simp only [List.forall_mem_append]
      exact ⟨⟨hzeros _, hzeros _⟩, hdigits⟩

/-- A row of digits with a point in it, for the number `n / 10 ^ p`. -/
def Spells (text : List Char) (n p : Nat) : Prop :=
  ∃ whole fraction, text = whole ++ '.' :: fraction ∧
    (∀ c ∈ whole ++ fraction, c.isDigit = true) ∧ digitsValue (whole ++ fraction) = n ∧
    fraction.length = p

theorem Spells.unique {text : List Char} {n n' p p' : Nat} (h : Spells text n p)
    (h' : Spells text n' p') : n = n' ∧ p = p' := by
  obtain ⟨whole, fraction, rfl, hdigits, rfl, rfl⟩ := h
  obtain ⟨whole', fraction', htext, _, rfl, rfl⟩ := h'
  have hpoint : '.' ∉ whole ++ fraction := fun hmem => absurd (hdigits _ hmem) (by decide)
  rw [List.mem_append, not_or] at hpoint
  obtain ⟨rfl, _, rfl⟩ := (List.append_cons_inj_of_notMem hpoint.1 hpoint.2).mp htext
  exact ⟨rfl, rfl⟩

theorem Spells.isDigit_or_point {text : List Char} {n p : Nat} (h : Spells text n p) :
    ∀ c ∈ text, c.isDigit = true ∨ c = '.' := by
  obtain ⟨whole, fraction, rfl, hdigits, _, _⟩ := h
  intro c hc
  rw [List.mem_append, List.mem_cons] at hc
  rw [List.forall_mem_append] at hdigits
  rcases hc with hc | rfl | hc
  · exact .inl (hdigits.1 c hc)
  · exact .inr rfl
  · exact .inl (hdigits.2 c hc)

/-- The text of a decimal has its value. -/
theorem spells_positionalWithPoint (d : Decimal) :
    ∃ n p, Spells d.positionalWithPoint n p ∧
      n * tenTo (-d.exponent).toNat = d.coefficient * tenTo d.exponent.toNat * tenTo p := by
  have hvalue := digitsValue_parts d
  have hdigits := isDigit_of_parts d
  unfold positionalWithPoint
  split
  · rename_i whole hparts
    rw [hparts] at hvalue hdigits
    dsimp only at hvalue hdigits
    rw [List.append_nil] at hvalue hdigits
    have hzero := digitsValue_append_zeros whole 1
    refine ⟨_, 1, ⟨whole, ['0'], rfl, ?_, hzero, rfl⟩, ?_⟩
    · exact List.forall_mem_append.mpr ⟨hdigits, List.all_eq_true.mp rfl⟩
    · rw [Nat.mul_assoc, hvalue, List.length_nil, show tenTo 0 = 1 from rfl, Nat.mul_one,
        Nat.mul_comm]
  · rename_i whole fraction _ hparts
    rw [hparts] at hvalue hdigits
    exact ⟨_, _, ⟨whole, fraction, rfl, hdigits, rfl, rfl⟩, hvalue⟩

/-- An integer is completed by `.0`. -/
theorem positional_append_point (d : Decimal) {cs : List Char} (hcs : '.' ∉ cs) :
    (if '.' ∈ cs ++ d.positional then cs ++ d.positional else cs ++ d.positional ++ ['.', '0']) =
      cs ++ d.positionalWithPoint := by
  have hdigits := isDigit_of_parts d
  unfold positional positionalWithPoint
  rcases hparts : d.parts with ⟨whole, _ | ⟨c, fraction⟩⟩
  · have hpoint : '.' ∉ cs ++ whole := by
      rw [List.mem_append, not_or]
      refine ⟨hcs, fun hmem => ?_⟩
      rw [hparts, List.append_nil] at hdigits
      exact absurd (hdigits _ hmem) (by decide)
    rw [if_neg hpoint, List.append_assoc]
  · have hpoint : '.' ∈ cs ++ (whole ++ '.' :: c :: fraction) := by simp
    exact if_pos hpoint

end Decimal

/-! ## Constants -/

/-- A constant has a point; where there was none it ends in `.0`. -/
theorem floatConstant_of_plain {x : Binary64} {text : List Char}
    (h : x.plain = String.ofList text) :
    (floatConstant x).toList = if '.' ∈ text then text else text ++ ['.', '0'] := by
  unfold floatConstant
  rw [h, String.toList_ofList]
  by_cases hpoint : '.' ∈ text
  · rw [if_pos (List.contains_iff_mem.mpr hpoint), if_pos hpoint, String.toList_ofList]
  · rw [if_neg (fun hmem => hpoint (List.contains_iff_mem.mp hmem)), if_neg hpoint,
      String.toList_append, String.toList_ofList]
    rfl

namespace Binary64

variable {x y : Binary64}

theorem eq_minus_of_signText {c : Char} (h : c ∈ x.signText) : c = '-' := by
  unfold signText at h
  split at h
  · exact List.mem_singleton.mp h
  · cases h

theorem point_not_mem_signText (x : Binary64) : '.' ∉ x.signText :=
  fun h => absurd (eq_minus_of_signText h) (by decide)

/-- The sign is in front of the rest. -/
theorem signText_append_inj {cs ds : List Char} (hcs : '-' ∉ cs) (hds : '-' ∉ ds)
    (h : x.signText ++ cs = y.signText ++ ds) : x.isNegative = y.isNegative ∧ cs = ds := by
  unfold signText at h
  cases hx : x.isNegative <;> cases hy : y.isNegative
  · rw [hx, hy] at h
    exact ⟨rfl, h⟩
  · rw [hx, hy] at h
    have hminus : cs = '-' :: ds := h
    exact absurd (hminus ▸ List.mem_cons_self) hcs
  · rw [hx, hy] at h
    have hminus : '-' :: cs = ds := h
    exact absurd (hminus ▸ List.mem_cons_self) hds
  · rw [hx, hy] at h
    exact ⟨rfl, List.cons.inj h |>.2⟩

theorem isNaN_of_isFinite (h : x.isFinite = true) : x.isNaN = false := by
  unfold isFinite at h
  unfold isNaN
  rw [decide_eq_true_eq] at h
  rw [Bool.and_eq_false_iff, beq_eq_false_iff_ne]
  exact .inl (by omega)

/-- The text of a finite number is its sign and a decimal of its interval. -/
theorem floatConstant_of_isFinite (h : x.isFinite = true) :
    ∃ text n p, (floatConstant x).toList = x.signText ++ text ∧ Decimal.Spells text n p ∧
      (Decimal.intervalOf x).Holds n (tenTo p) := by
  -- zero has a text of its own, but its interval holds it like any other
  by_cases hzero : x.magnitude = 0
  · have hplain : x.plain = String.ofList (x.signText ++ ['0']) := by
      simp [plain, isNaN_of_isFinite h, h, isZero, hzero]
    have hpoint : '.' ∉ x.signText ++ ['0'] := by
      simp [point_not_mem_signText x]
    refine ⟨['0', '.', '0'], 0, 1, ?_, ⟨['0'], ['0'], rfl, List.all_eq_true.mp rfl, rfl, rfl⟩, ?_⟩
    · rw [floatConstant_of_plain hplain, if_neg hpoint, List.append_assoc]
      rfl
    · have hclosed : (Decimal.intervalOf x).closed = true :=
        (Decimal.closed_intervalOf x).mpr (by omega)
      have hlow : (Decimal.intervalOf x).low = 0 := by
        rw [Decimal.low_intervalOf, hzero]
        rfl
      unfold Decimal.Interval.Holds
      rw [if_pos hclosed, hlow]
      omega
  · have hplain : x.plain =
        String.ofList (x.signText ++ (Decimal.shortest .up x).positional) := by
      simp [plain, isNaN_of_isFinite h, h, isZero, hzero]
    obtain ⟨n, p, hspells, hratio⟩ :=
      (Decimal.shortest .up x).spells_positionalWithPoint
    refine ⟨_, n, p, ?_, hspells, ?_⟩
    · rw [floatConstant_of_plain hplain]
      exact Decimal.positional_append_point _ (point_not_mem_signText x)
    · exact (Decimal.shortest_in .up (by omega)).of_ratio hratio.symm (tenTo_pos _) (tenTo_pos _)

theorem floatConstant_of_infinite (h : x.isFinite = false) (hnan : x.isNaN = false) :
    (floatConstant x).toList = x.signText ++ ['i', 'n', 'f', '.', '0'] := by
  have hplain : x.plain = String.ofList (x.signText ++ ['i', 'n', 'f']) := by
    simp [plain, hnan, h]
  have hpoint : '.' ∉ x.signText ++ ['i', 'n', 'f'] := by
    simp [point_not_mem_signText x]
  rw [floatConstant_of_plain hplain, if_neg hpoint, List.append_assoc]
  rfl

theorem magnitude_of_infinite (h : x.isFinite = false) (hnan : x.isNaN = false) :
    x.magnitude = infinitePattern := by
  have hlt : x.magnitude < twoTo 63 := Nat.mod_lt _ (twoTo_pos 63)
  have hsize : twoTo 52 = 4503599627370496 := rfl
  have hbound : twoTo 63 = 9223372036854775808 := rfl
  unfold isFinite exponentField at h
  unfold isNaN exponentField fraction at hnan
  unfold infinitePattern
  rw [decide_eq_false_iff_not] at h
  rw [Bool.and_eq_false_iff, beq_eq_false_iff_ne, bne_eq_false_iff_eq] at hnan
  rw [hsize] at h hnan ⊢
  rw [hbound] at hlt
  omega

/-- What stands behind the sign: a decimal of the interval, or the name of infinity. -/
def Figure (x : Binary64) (text : List Char) : Prop :=
  (∃ n p, Decimal.Spells text n p ∧ (Decimal.intervalOf x).Holds n (tenTo p)) ∨
    (text = ['i', 'n', 'f', '.', '0'] ∧ x.magnitude = infinitePattern)

theorem exists_figure (h : x.isNaN = false) :
    ∃ text, (floatConstant x).toList = x.signText ++ text ∧ x.Figure text := by
  cases hfinite : x.isFinite with
  | true =>
      obtain ⟨text, n, p, htext, hspells, hholds⟩ := floatConstant_of_isFinite hfinite
      exact ⟨text, htext, .inl ⟨n, p, hspells, hholds⟩⟩
  | false =>
      exact ⟨_, floatConstant_of_infinite hfinite h, .inr ⟨rfl, magnitude_of_infinite hfinite h⟩⟩

theorem Figure.isAlphanum_or_point {text : List Char} (h : x.Figure text) :
    ∀ c ∈ text, (c.isAlphanum || c == '.') = true := by
  rcases h with ⟨n, p, hspells, _⟩ | ⟨rfl, _⟩
  · intro c hc
    rcases hspells.isDigit_or_point c hc with hdigit | rfl
    · rw [Char.isAlphanum, hdigit, Bool.or_true, Bool.true_or]
    · rfl
  · exact List.all_eq_true.mp rfl

theorem Figure.minus_not_mem {text : List Char} (h : x.Figure text) : '-' ∉ text :=
  fun hmem => absurd (h.isAlphanum_or_point _ hmem) (by decide)

theorem Figure.magnitude_eq {text : List Char} (hx : x.Figure text) (hy : y.Figure text) :
    x.magnitude = y.magnitude := by
  -- the name of infinity is no row of digits
  have hname : ∀ n p, ¬ Decimal.Spells ['i', 'n', 'f', '.', '0'] n p := by
    intro n p hspells
    rcases hspells.isDigit_or_point 'i' List.mem_cons_self with hdigit | hpoint
    · exact absurd hdigit (by decide)
    · exact absurd hpoint (by decide)
  rcases hx with ⟨n, p, hspells, hholds⟩ | ⟨rfl, hx⟩ <;>
    rcases hy with ⟨n', p', hspells', hholds'⟩ | ⟨htext, hy⟩
  · -- one text has one value, and this lies in one interval only
    obtain ⟨rfl, rfl⟩ := hspells.unique hspells'
    exact Decimal.magnitude_eq_of_holds (tenTo_pos p) hholds hholds'
  · exact absurd (htext ▸ hspells) (hname n p)
  · exact absurd hspells' (hname n' p')
  · rw [hx, hy]

/-- **A number is determined by its constant.** -/
theorem eq_of_floatConstant (hx : x.isNaN = false) (hy : y.isNaN = false)
    (h : floatConstant x = floatConstant y) : x = y := by
  obtain ⟨text, htext, hfigure⟩ := exists_figure hx
  obtain ⟨text', htext', hfigure'⟩ := exists_figure hy
  rw [← String.toList_inj, htext, htext'] at h
  obtain ⟨hsign, rfl⟩ := signText_append_inj hfigure.minus_not_mem hfigure'.minus_not_mem h
  exact eq_of_magnitude hsign (hfigure.magnitude_eq hfigure')

/-- A constant has letters, digits, points and minus signs only. -/
theorem not_mem_floatConstant (x : Binary64) {c : Char}
    (hc : (c.isAlphanum || c == '.' || c == '-') = false) : c ∉ (floatConstant x).toList := by
  rw [Bool.or_eq_false_iff, beq_eq_false_iff_ne] at hc
  obtain ⟨hother, hminus⟩ := hc
  have hnot : ∀ {text : List Char}, (∀ d ∈ text, (d.isAlphanum || d == '.') = true) →
      c ∉ text := by
    intro text htext hmem
    have hchar := htext c hmem
    rw [hother] at hchar
    cases hchar
  intro hmem
  cases hnan : x.isNaN with
  | false =>
      obtain ⟨text, htext, hfigure⟩ := exists_figure hnan
      rw [htext, List.mem_append] at hmem
      rcases hmem with hmem | hmem
      · exact hminus (eq_minus_of_signText hmem)
      · exact hnot hfigure.isAlphanum_or_point hmem
  | true =>
      have hplain : x.plain = String.ofList ['N', 'a', 'N'] := by
        unfold plain
        rw [if_pos hnan]
      rw [floatConstant_of_plain hplain] at hmem
      have hname : c ∉ ['N', 'a', 'N', '.', '0'] := hnot (List.all_eq_true.mp rfl)
      exact hname hmem

end Binary64

end Dam
