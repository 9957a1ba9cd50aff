import Dam.Number.Binary64
import Dam.Text.Digit
import Dam.Text.Split
import Dam.Toml

/-!
# Numbers and dates in TOML

Which texts are numbers, dates and times. A value of this kind is the longest row of the
characters they are written in, so each kind is a predicate on whole texts. Integers have
64 bits, and a number above the largest binary64 is refused.
-/

namespace Dam.Toml

/-! ## Numbers -/

/-- Whether a text consists of digits, with single underscores between some of them. -/
def isDigitRow (digit : Char → Bool) (cs : List Char) : Bool :=
  (splitAtEach '_' cs).all fun ds => !ds.isEmpty && ds.all digit

/-- The text without underscores. -/
def withoutUnderscores (cs : List Char) : List Char := cs.filter (· != '_')

/-- Whether a text starts with a minus, and what follows its sign. -/
def splitSign : List Char → Bool × List Char
  | '-' :: cs => (true, cs)
  | '+' :: cs => (false, cs)
  | cs => (false, cs)

/-- Whether a text is a row of decimal digits without a needless zero in front. -/
def isWhole (cs : List Char) : Bool :=
  isDigitRow isDigit cs && (cs.head? != some '0' || cs == ['0'])

/-- The value of digits in a base. -/
def valueIn (base : Nat) (cs : List Char) : Nat :=
  cs.foldl (fun n c => base * n + (hexValue? c).getD 0) 0

/-- Whether a text is a row of digits of a base with a value below `2 ^ 63`. -/
def isBased (base : Nat) (cs : List Char) : Bool :=
  isDigitRow (fun c => (hexValue? c).any fun n => n < base) cs
    && valueIn base (withoutUnderscores cs) < twoTo 63

/-- Whether a text is an integer of 64 bits. -/
def isInteger : List Char → Bool
  | '0' :: 'x' :: cs => isBased 16 cs
  | '0' :: 'o' :: cs => isBased 8 cs
  | '0' :: 'b' :: cs => isBased 2 cs
  | cs =>
    let (negative, ds) := splitSign cs
    let n := valueIn 10 (withoutUnderscores ds)
    isWhole ds && (if negative then n ≤ twoTo 63 else n < twoTo 63)

/-- The parts of a number with a point or an exponent, without underscores. -/
structure FloatParts where
  whole : List Char
  fraction : List Char
  exponent : Int

/-- The value of an exponent with its mark. -/
def exponent? : List Char → Option Int
  | [] => none
  | c :: cs =>
    if c = 'e' ∨ c = 'E' then
      let (negative, ds) := splitSign cs
      let n : Int := valueIn 10 (withoutUnderscores ds)
      if isDigitRow isDigit ds then some (if negative then -n else n) else none
    else none

/-- Splits the text of a number without its sign. -/
def floatParts? (cs : List Char) : Option FloatParts :=
  let inRow := fun c => isDigit c || c == '_'
  let whole := cs.takeWhile inRow
  if !isWhole whole then none
  else
    match cs.dropWhile inRow with
    | '.' :: cs =>
      let fraction := cs.takeWhile inRow
      if !isDigitRow isDigit fraction then none
      else
        let parts := fun e =>
          FloatParts.mk (withoutUnderscores whole) (withoutUnderscores fraction) e
        match cs.dropWhile inRow with
        | [] => some (parts 0)
        | cs => (exponent? cs).map parts
    | cs => (exponent? cs).map fun e => ⟨withoutUnderscores whole, [], e⟩

/-- The binary64 magnitude of a number. -/
def FloatParts.magnitude (p : FloatParts) : Binary64 :=
  .ofDecimal false (digitsValue (p.whole ++ p.fraction)) (p.exponent - p.fraction.length)

/-- Whether a text is a number with a point or an exponent, or the name of a special one. -/
def isFloat (cs : List Char) : Bool :=
  let (negative, ds) := splitSign cs
  ds == ['i', 'n', 'f'] || ds == ['n', 'a', 'n'] ||
    (floatParts? ds).any fun p => negative || p.magnitude.isFinite

/-! ## Dates and times -/

/-- What follows a row of `n` digits whose value lies in a range, and the value. -/
def field? (n low high : Nat) (cs : List Char) : Option (Nat × List Char) :=
  let ds := cs.take n
  let v := digitsValue ds
  if ds.length = n ∧ ds.all isDigit ∧ low ≤ v ∧ v ≤ high then some (v, cs.drop n) else none

/-- What follows a character. -/
def after? (c : Char) : List Char → Option (List Char)
  | d :: cs => if d = c then some cs else none
  | [] => none

/-- The number of days in a month. -/
def daysIn (year month : Nat) : Nat :=
  if month = 2 then
    if year % 4 = 0 ∧ (year % 100 ≠ 0 ∨ year % 400 = 0) then 29 else 28
  else if month ∈ [4, 6, 9, 11] then 30
  else 31

/-- What follows a date. -/
def date? (cs : List Char) : Option (List Char) := do
  let (year, cs) ← field? 4 0 9999 cs
  let (month, cs) ← field? 2 1 12 (← after? '-' cs)
  let (_, cs) ← field? 2 1 (daysIn year month) (← after? '-' cs)
  some cs

/-- What follows a time. A minute may have a leap second. -/
def time? (cs : List Char) : Option (List Char) := do
  let (_, cs) ← field? 2 0 23 cs
  let (_, cs) ← field? 2 0 59 (← after? ':' cs)
  let (_, cs) ← field? 2 0 60 (← after? ':' cs)
  match cs with
  | '.' :: c :: rest => if isDigit c then some (rest.dropWhile isDigit) else some cs
  | cs => some cs

/-- What follows the distance to universal time. -/
def offset? : List Char → Option (List Char)
  | [] => none
  | c :: cs =>
    if c = 'Z' ∨ c = 'z' then some cs
    else if c = '+' ∨ c = '-' then do
      let (_, cs) ← field? 2 0 23 cs
      let (_, cs) ← field? 2 0 59 (← after? ':' cs)
      some cs
    else none

/-- Whether a text is a date, a time, or both. -/
def isDateTime (cs : List Char) : Bool :=
  match date? cs with
  | none => time? cs == some []
  | some [] => true
  | some (c :: cs) =>
    (c == 'T' || c == 't' || c == ' ') &&
      match time? cs with
      | none => false
      | some [] => true
      | some cs => offset? cs == some []

/-! ## Values -/

/-- The characters of numbers, dates and truth values. -/
def isScalarChar (c : Char) : Bool :=
  isDigit c || ('a' ≤ c && c ≤ 'z') || ('A' ≤ c && c ≤ 'Z') || c ∈ ['_', '-', '+', '.', ':']

/-- The value of a text without quotes and brackets. -/
def scalar? (cs : List Char) : Option Toml :=
  if cs = ['t', 'r', 'u', 'e'] then some (.bool true)
  else if cs = ['f', 'a', 'l', 's', 'e'] then some (.bool false)
  else if isInteger cs || isFloat cs then some (.number (String.ofList cs))
  else if isDateTime cs then some (.dateTime (String.ofList cs))
  else none

/--
The value in front of a text. A blank ends it, except between a date and a time.
-/
def readScalar (cs : List Char) : Option (Toml × List Char) := do
  let text := cs.takeWhile isScalarChar
  let rest := cs.dropWhile isScalarChar
  match date? text, rest with
  | some [], ' ' :: c :: more =>
    if isDigit c then
      let time := (c :: more).takeWhile isScalarChar
      some (← scalar? (text ++ ' ' :: time), (c :: more).dropWhile isScalarChar)
    else some (← scalar? text, rest)
  | _, _ => some (← scalar? text, rest)

end Dam.Toml
