import Dam.Json
import Dam.Number.Decimal
import Dam.Text.Digit

/-!
# Numbers in JSON

What the text of a JSON number stands for: a natural number, or a binary64 number.

A binary64 number is read in one pass over the digits. They are put together to an
integer of at most 64 bits: of the digits before the point, and then of those behind it,
as many as still fit. The integer is rounded, and then scaled by a rounded power of ten
that makes up for the digits that were left out. The result can be one step away from
the nearest number.
-/

namespace Dam.Json

/-- The parts of a number: sign, digits before and after the point, and its exponent if any. -/
structure NumberParts where
  negative : Bool
  whole : List Char
  fraction : List Char
  exponent : Option (Bool × List Char)
deriving Repr

namespace NumberParts

/-- The exponent part: a sign, which may be missing, and the digits. -/
def exponentOf : List Char → Bool × List Char
  | '-' :: cs => (true, cs)
  | '+' :: cs => (false, cs)
  | cs => (false, cs)

/-- Splits the text of a number. -/
def ofText (text : String) : NumberParts :=
  let (negative, cs) :=
    match text.toList with
    | '-' :: cs => (true, cs)
    | cs => (false, cs)
  let whole := cs.takeWhile isDigit
  let (fraction, cs) :=
    match cs.dropWhile isDigit with
    | '.' :: cs => (cs.takeWhile isDigit, cs.dropWhile isDigit)
    | cs => ([], cs)
  let exponent :=
    match cs with
    | [] => none
    | _ :: cs => some (exponentOf cs)
  ⟨negative, whole, fraction, exponent⟩

/-- Whether the text is that of an integer. -/
def isInteger (p : NumberParts) : Bool := p.fraction.isEmpty && p.exponent.isNone

end NumberParts

/-- A natural number below `limit`, written without sign, point and exponent. -/
def nat? (limit : Nat) (v : Json) : Option Nat :=
  match v with
  | .number text =>
    let p := NumberParts.ofText text
    let n := digitsValue p.whole
    if p.isInteger && !p.negative && decide (n < limit) then some n else none
  | _ => none

/-! ## Binary64 numbers -/

/-- Whether another digit fits behind `n` in 64 bits. -/
def fits (n : Nat) (c : Char) : Bool := 10 * n + (c.toNat - 48) < twoTo 64

/-- Reads digits into an integer while they fit; also gives the digits that did not. -/
def takeDigits (n : Nat) : List Char → Nat × List Char
  | [] => (n, [])
  | c :: cs => if fits n c then takeDigits (10 * n + (c.toNat - 48)) cs else (n, c :: cs)

/-- `f * 10 ^ exponent` for an exponent that is at least `-308 * steps - 308`. -/
def scale (f : Binary64) (exponent : Int) : Nat → Option Binary64
  | 0 => some (.zero false)
  | steps + 1 =>
    if exponent.natAbs ≤ 308 then
      let ten := Binary64.ofDecimal false 1 exponent.natAbs
      if 0 ≤ exponent then
        let g := f.mulMagnitude ten
        if g.isFinite then some g else none
      else some (f.divMagnitude ten)
    else if f.isZero then some f
    else if 0 ≤ exponent then none
    else scale (f.divMagnitude (.ofDecimal false 1 308)) (exponent + 308) steps

/-- The largest value of an exponent that is taken at its word. -/
def maxExponent : Nat := twoTo 31 - 1

/-- The binary64 number of a text; too large ones have none. -/
def binary64? (v : Json) : Option Binary64 :=
  match v with
  | .number text =>
    let p := NumberParts.ofText text
    let (n, more) := takeDigits 0 p.whole
    let signed := fun f : Binary64 => if p.negative then f.negate else f
    if p.isInteger && more.isEmpty then some (.ofDecimal p.negative n 0)
    else
      let (n, rest) := takeDigits n p.fraction
      let shift : Int := (more.length : Int) - (p.fraction.length - rest.length : Nat)
      match p.exponent with
      | none => (scale (.ofDecimal false n 0) shift 4).map signed
      | some (down, digits) =>
        let e := digitsValue digits
        if maxExponent < e then
          if n ≠ 0 ∧ ¬ down then none else some (signed (.zero false))
        else
          let exponent := if down then shift - e else shift + e
          (scale (.ofDecimal false n 0) exponent 4).map signed
  | _ => none

end Dam.Json
