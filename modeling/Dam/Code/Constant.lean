import Dam.Number.Decimal
import Dam.Text.Digit

/-!
# Constants in assembly text

Strings are written in quotes with printable ASCII only. Any other character
becomes escapes of four hexadecimal digits, one for each of its UTF-16 units.
Numbers always have a point, so that the assembler takes them for floats.
-/

namespace Dam

/-- The UTF-16 units of a character. -/
def utf16 (c : Char) : List Nat :=
  let n := c.toNat
  if n < 0x10000 then [n]
  else [0xD800 + (n - 0x10000) / 0x400, 0xDC00 + (n - 0x10000) % 0x400]

/-- The escape of a UTF-16 unit. -/
def escapeUnit (u : Nat) : List Char :=
  ['\x5c', 'u', hexDigit (u / 4096 % 16), hexDigit (u / 256 % 16), hexDigit (u / 16 % 16),
    hexDigit (u % 16)]

/-- A character inside a quoted constant. -/
def escapeChar (c : Char) : List Char :=
  match c with
  | '\x22' => ['\x5c', '\x22']
  | '\x5c' => ['\x5c', '\x5c']
  | '\n' => ['\x5c', 'n']
  | '\t' => ['\x5c', 't']
  | '\r' => ['\x5c', 'r']
  | c => if ' ' ≤ c ∧ c ≤ '~' then [c] else (utf16 c).flatMap escapeUnit

/-- The text of a string constant, without its quotes. -/
def escapeString (s : String) : String := String.ofList (s.toList.flatMap escapeChar)

/-- The text of a float constant. -/
def floatConstant (x : Binary64) : String :=
  if x.plain.toList.contains '.' then x.plain else x.plain ++ ".0"

end Dam
