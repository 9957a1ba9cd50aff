import Dam.Number.Binary64

/-!
# Decimal text of numbers

A number is written with the fewest digits that read back as the same number.
`Decimal.shortest` finds those digits by trying ever finer decimal grids: the
first grid with a point inside the interval of reals that round to the number
wins, and of two such points the nearer one.

Two layouts are made of these digits. `Binary64.plain` always writes
positionally and is what messages and `ldc` operands use. `Binary64.json` is the
layout of numbers in JSON, positional only in the middle of the range.
-/

namespace Dam

/-- The decimal `coefficient * 10 ^ exponent`. -/
structure Decimal where
  coefficient : Nat
  exponent : Int
deriving DecidableEq, Repr

/-- Where a number exactly between two candidates goes. -/
inductive Tie where
  | up
  | toEven
deriving DecidableEq, Repr

namespace Decimal

/-- The reals that round to a number, in quarter units, and whether the two ends do as well. -/
structure Interval where
  low : Nat
  mid : Nat
  high : Nat
  closed : Bool

/--
The interval of a finite number other than zero. The gap below a power of two is
half the gap above it, except where the scale cannot shrink any more.
-/
def intervalOf (x : Binary64) : Interval :=
  let step := twoTo x.power
  let mid := 4 * x.units
  let narrow := x.fraction = 0 ∧ 1 < x.exponentField
  { low := mid - (if narrow then step else 2 * step)
    mid := mid
    high := mid + 2 * step
    closed := x.significand % 2 == 0 }

/-- Quarter units in the number one. -/
def quartersPerOne : Nat := 4 * twoTo 1074

/--
The multiple of `10 ^ k` to write for the number, if one lies in the interval.
Only the two neighbours of the number on that grid need to be looked at.
-/
def onGrid? (tie : Tie) (i : Interval) (k : Int) : Option Nat :=
  let up := tenTo k.toNat
  let down := tenTo (-k).toNat
  let step := quartersPerOne * up
  let low := i.low * down
  let mid := i.mid * down
  let high := i.high * down
  let below := mid / step
  let r := mid % step
  let inside (c : Nat) : Bool :=
    if i.closed then low ≤ c * step && c * step ≤ high else low < c * step && c * step < high
  let above := if r = 0 then below else below + 1
  match inside below, inside above with
  | false, false => none
  | true, false => some below
  | false, true => some above
  | true, true =>
    if 2 * r < step then some below
    else if step < 2 * r then some above
    else
      match tie with
      | .up => some above
      | .toEven => some (if below % 2 = 0 then below else above)

/-- The number itself: a unit is `5 ^ 1074 * 10 ^ -1074`. -/
def exact (x : Binary64) : Decimal := ⟨x.units * Nat.pow 5 1074, -1074⟩

/-- The point to write on the coarsest of `steps` grids from `10 ^ k` down that has one. -/
def search (tie : Tie) (i : Interval) (other : Decimal) : (steps : Nat) → (k : Int) → Decimal
  | 0, _ => other
  | steps + 1, k =>
    match onGrid? tie i k with
    | some c => ⟨c, k⟩
    | none => search tie i other steps (k - 1)

/-- A power of ten above the number; `0.30103` is just above the logarithm of two. -/
def topExponent (x : Binary64) : Int :=
  Int.fdiv (((Nat.log2 x.units : Int) - 1073) * 30103) 100000 + 2

/--
The decimal with the fewest digits that reads back as the number, and of those
the nearest one. Seventeen digits always suffice, which twenty-four grids cover; the
exact value stands behind them so that the result reads back in any case.
-/
def shortest (tie : Tie) (x : Binary64) : Decimal :=
  search tie (intervalOf x) (exact x) 24 (topExponent x)

/-- The digits of the coefficient. -/
def digits (d : Decimal) : List Char := Nat.toDigits 10 d.coefficient

/-- The power of ten of the first digit. -/
def leadingExponent (d : Decimal) : Int := d.exponent + d.digits.length - 1

/-- The whole part and the fraction, written out with all their zeros. -/
def parts (d : Decimal) : List Char × List Char :=
  let ds := d.digits
  let places := (-d.exponent).toNat
  if places = 0 then (ds ++ List.replicate d.exponent.toNat '0', [])
  else if places < ds.length then (ds.take (ds.length - places), ds.drop (ds.length - places))
  else (['0'], List.replicate (places - ds.length) '0' ++ ds)

/-- Positional notation; an integer has no point. -/
def positional (d : Decimal) : List Char :=
  match d.parts with
  | (whole, []) => whole
  | (whole, fraction) => whole ++ '.' :: fraction

/-- Positional notation; an integer ends in `.0`. -/
def positionalWithPoint (d : Decimal) : List Char :=
  match d.parts with
  | (whole, []) => whole ++ ['.', '0']
  | (whole, fraction) => whole ++ '.' :: fraction

/-- One digit, a fraction if there are more, and a signed exponent. -/
def scientific (d : Decimal) : List Char :=
  let e := d.leadingExponent
  let mantissa :=
    match d.digits with
    | [] => ['0']
    | [c] => [c]
    | c :: cs => c :: '.' :: cs
  mantissa ++ 'e' :: (if e < 0 then '-' else '+') :: Nat.toDigits 10 e.natAbs

end Decimal

namespace Binary64

/-- The characters of the sign. -/
def signText (x : Binary64) : List Char := if x.isNegative then ['-'] else []

/--
The plain text of a number: shortest digits, positional at every size, a tie
upwards, zero with its sign.
-/
def plain (x : Binary64) : String :=
  if x.isNaN then "NaN"
  else if !x.isFinite then String.ofList (x.signText ++ ['i', 'n', 'f'])
  else if x.isZero then String.ofList (x.signText ++ ['0'])
  else String.ofList (x.signText ++ (Decimal.shortest .up x).positional)

/--
The JSON text of a number: shortest digits, a tie to the even digit, positional
with a point from `10 ^ -5` up to `10 ^ 16`, scientific outside. JSON has no
text for what is not finite.
-/
def json (x : Binary64) : String :=
  if !x.isFinite then "null"
  else if x.isZero then String.ofList (x.signText ++ ['0', '.', '0'])
  else
    let d := Decimal.shortest .toEven x
    let e := d.leadingExponent
    String.ofList <| x.signText ++
      if -5 ≤ e ∧ e < 16 then d.positionalWithPoint else d.scientific

end Binary64

end Dam
