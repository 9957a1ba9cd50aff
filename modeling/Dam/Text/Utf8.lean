/-!
# UTF-8

Bytes as text. The bytes are split into pieces: each is a character, or bytes that
belong to none, as many of them as could still have begun one. A text is well formed
if all its pieces are characters; a lenient reader shows the others as `U+FFFD`.
-/

namespace Dam

/-- The content of a file. -/
abbrev Bytes := List UInt8

namespace Utf8

/-- The bytes of a text. -/
def encode (s : String) : Bytes := s.toUTF8.toList

/-- What a first byte tells: how many bytes follow, the range of the next one, and its own bits. -/
structure Lead where
  more : Nat
  low : Nat
  high : Nat
  bits : Nat

/-- What a first byte above the ASCII range tells, if it can be one. -/
def lead? (b : Nat) : Option Lead :=
  if 0xC2 ≤ b ∧ b ≤ 0xDF then some ⟨1, 0x80, 0xBF, b - 0xC0⟩
  else if b = 0xE0 then some ⟨2, 0xA0, 0xBF, 0⟩
  else if b = 0xED then some ⟨2, 0x80, 0x9F, 0xD⟩
  else if 0xE1 ≤ b ∧ b ≤ 0xEF then some ⟨2, 0x80, 0xBF, b - 0xE0⟩
  else if b = 0xF0 then some ⟨3, 0x90, 0xBF, 0⟩
  else if 0xF1 ≤ b ∧ b ≤ 0xF3 then some ⟨3, 0x80, 0xBF, b - 0xF0⟩
  else if b = 0xF4 then some ⟨3, 0x80, 0x8F, 4⟩
  else none

/-- Bytes on the way to pieces: the finished pieces, backwards, and the one that needs more bytes. -/
structure Reading where
  done : List (Option Char)
  open? : Option Lead

namespace Reading

/-- A piece is finished: a character, or bytes that belong to none. -/
def close (r : Reading) (c : Option Char) : Reading := ⟨c :: r.done, none⟩

/-- A byte that begins a piece. -/
def start (r : Reading) (b : Nat) : Reading :=
  if b < 0x80 then r.close (some (Char.ofNat b))
  else
    match lead? b with
    | some l => ⟨r.done, some l⟩
    | none => r.close none

/-- Takes one more byte. -/
def step (r : Reading) (byte : UInt8) : Reading :=
  let b := byte.toNat
  match r.open? with
  | some l =>
    if l.low ≤ b ∧ b ≤ l.high then
      let bits := l.bits * 64 + (b - 0x80)
      if l.more ≤ 1 then r.close (some (Char.ofNat bits))
      else ⟨r.done, some ⟨l.more - 1, 0x80, 0xBF, bits⟩⟩
    else (r.close none).start b
  | none => r.start b

/-- The pieces when there are no more bytes. -/
def finish (r : Reading) : List (Option Char) :=
  match r.open? with
  | some _ => (none :: r.done).reverse
  | none => r.done.reverse

end Reading

/-- The pieces of a byte sequence. -/
def pieces (bytes : Bytes) : List (Option Char) := (bytes.foldl Reading.step ⟨[], none⟩).finish

/-- The text, if the bytes are well formed. -/
def decode? (bytes : Bytes) : Option String := ((pieces bytes).mapM id).map String.ofList

/-- The text, with a replacement for what is malformed. -/
def decodeLossy (bytes : Bytes) : String :=
  String.ofList ((pieces bytes).map fun c => c.getD '\ufffd')

end Utf8

end Dam
