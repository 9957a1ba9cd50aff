import Dam.Number.Power

/-!
# Binary64 numbers

The compiler never computes with the numbers of a program. It reads them from
decimal text, compares them with a limit and writes them down again. So a number
is just its 64-bit pattern, and everything here is exact arithmetic on natural
numbers: a finite number is `significand * 2 ^ power / 2 ^ 1074`, and rounding
is the choice of a multiple of the right power of two.
-/

namespace Dam

/-- A binary64 number, as its bit pattern: sign, eleven exponent bits, fraction. -/
structure Binary64 where
  bits : UInt64
deriving DecidableEq, Repr, Inhabited

namespace Binary64

/-- Whether the sign bit is set. -/
def isNegative (x : Binary64) : Bool := x.bits.toNat / twoTo 63 == 1

/-- The pattern without its sign bit. Patterns of magnitudes are ordered as the magnitudes are. -/
def magnitude (x : Binary64) : Nat := x.bits.toNat % twoTo 63

/-- The eleven exponent bits. -/
def exponentField (x : Binary64) : Nat := x.magnitude / twoTo 52

/-- The fifty-two fraction bits. -/
def fraction (x : Binary64) : Nat := x.magnitude % twoTo 52

/-- Whether the pattern is neither an infinity nor a NaN. -/
def isFinite (x : Binary64) : Bool := x.exponentField < 2047

/-- Whether the pattern stands for no number. -/
def isNaN (x : Binary64) : Bool := x.exponentField == 2047 && x.fraction != 0

/-- Whether the number is zero, of either sign. -/
def isZero (x : Binary64) : Bool := x.magnitude == 0

/-- The integer that is scaled: the fraction, with the hidden bit of a normal number. -/
def significand (x : Binary64) : Nat :=
  if x.exponentField = 0 then x.fraction else twoTo 52 + x.fraction

/-- The power of two of the scale, counted up from the smallest one. -/
def power (x : Binary64) : Nat := x.exponentField - 1

/-- The magnitude of a finite number, in units of `2 ^ -1074`. -/
def units (x : Binary64) : Nat := x.significand * twoTo x.power

/-- The magnitude pattern of an infinity. -/
def infinitePattern : Nat := 2047 * twoTo 52

/-- The number with a magnitude pattern and a sign. -/
def ofMagnitude (negative : Bool) (pattern : Nat) : Binary64 :=
  ⟨UInt64.ofNat (pattern + if negative then twoTo 63 else 0)⟩

/-- Zero of either sign. -/
def zero (negative : Bool) : Binary64 := ofMagnitude negative 0

/-- Infinity of either sign. -/
def infinity (negative : Bool) : Binary64 := ofMagnitude negative infinitePattern

/-- The quiet NaN with an empty payload. -/
def nan : Binary64 := ofMagnitude false (infinitePattern + twoTo 51)

/-- The integer nearest to `num / den`; a half goes to the even neighbour. -/
def roundHalfEven (num den : Nat) : Nat :=
  let q := num / den
  let r := num % den
  if den < 2 * r ∨ (2 * r = den ∧ q % 2 = 1) then q + 1 else q

/--
The number nearest to `num / den`, halves to even. The step between candidates
is `2 ^ p` units, with `p` the least power that leaves at most 53 bits; the
pattern of `q` steps is `p * 2 ^ 52 + q`, which carries into the exponent by
itself when `q` reaches `2 ^ 53`. What lies beyond the largest number is infinite.
-/
def ofRatio (negative : Bool) (num den : Nat) : Binary64 :=
  let scaled := num * twoTo 1074
  let p := Nat.log2 (scaled / den) - 52
  let q := roundHalfEven scaled (den * twoTo p)
  ofMagnitude negative (min (p * twoTo 52 + q) infinitePattern)

/--
The number nearest to `digits * 10 ^ exponent`. Exponents far outside the range
of the format are settled first, so that no huge power is ever computed.
-/
def ofDecimal (negative : Bool) (digits : Nat) (exponent : Int) : Binary64 :=
  if digits = 0 then zero negative
  else if 400 < exponent then infinity negative
  else if exponent + (Nat.log2 digits : Int) < -400 then zero negative
  else if 0 ≤ exponent then ofRatio negative (digits * tenTo exponent.toNat) 1
  else ofRatio negative digits (tenTo (-exponent).toNat)

/-- The product of two magnitudes, rounded once. -/
def mulMagnitude (x y : Binary64) : Binary64 :=
  ofRatio false (x.units * y.units) (twoTo 1074 * twoTo 1074)

/-- The quotient of two magnitudes, rounded once. -/
def divMagnitude (x y : Binary64) : Binary64 := ofRatio false x.units y.units

/-- The number with its sign turned. -/
def negate (x : Binary64) : Binary64 := ofMagnitude (!x.isNegative) x.magnitude

/-- The largest number of the narrower binary32 format, which the target machine computes in. -/
def maxBinary32 : Binary64 := ⟨0x47efffffe0000000⟩

end Binary64

end Dam
