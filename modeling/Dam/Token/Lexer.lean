import Dam.Text.Blank
import Dam.Text.Digit
import Dam.Token

/-!
# From text to tokens

The lexer splits a text into tokens in two layers. `scan` looks at characters
only: from the first character of a token it finds the characters that belong to
it and what they stand for. `Cursor` adds the position, which is a fold over the
characters passed so far and has no influence on how the text is split.

A fault ends the token it occurs in and leaves the cursor just past the
characters read, so lexing can go on from there. `scan_append` says that nothing
is lost: the characters of the token and the rest make up the input.
-/

namespace Dam

/-- Why a text cannot be split further. -/
inductive LexFault where
  | unexpected (c : Char)
  | unterminatedString
  | unterminatedEscape
  | unknownEscape (c : Char)
  | numberOutOfRange (text : String)
deriving DecidableEq, Repr

/-- The wording of a lexical fault. -/
def LexFault.message : LexFault → String
  | .unexpected c => "unexpected character '" ++ String.singleton c ++ "'"
  | .unterminatedString => "unterminated string literal"
  | .unterminatedEscape => "unterminated escape sequence"
  | .unknownEscape c => "unknown escape sequence '\\" ++ String.singleton c ++ "'"
  | .numberOutOfRange t => "number literal '" ++ t ++ "' is out of range"

/-- A lexical fault and the characters it concerns. -/
structure LexError where
  fault : LexFault
  span : Span
deriving DecidableEq, Repr

/-- The fault with its place. -/
def LexError.message (e : LexError) : String :=
  "lex error at " ++ e.span.place ++ ": " ++ e.fault.message

/-! ## Characters -/

/-- Characters a name can begin with. -/
def isNameStart (c : Char) : Bool := ('a' ≤ c && c ≤ 'z') || ('A' ≤ c && c ≤ 'Z') || c == '_'

/-- Characters a name can go on with. -/
def isNamePart (c : Char) : Bool := isNameStart c || isDigit c

/-- The character a backslash and a letter stand for in a string. -/
def unescape? : Char → Option Char
  | 'n' => some '\n'
  | 't' => some '\t'
  | 'r' => some '\r'
  | '\x5c' => some '\x5c'
  | '\x22' => some '\x22'
  | '0' => some '\x00'
  | _ => none

/-! ## One token -/

/-- The characters of one token, what follows them, and what they stand for. -/
structure Scan where
  lexeme : List Char
  rest : List Char
  outcome : Except LexFault TokenKind

/--
The rest of a string after its opening quote. `read` and `value` hold the
characters read and the content so far, both backwards.
-/
def scanString (read value : List Char) : List Char → Scan
  | [] => ⟨read.reverse, [], .error .unterminatedString⟩
  | '\x22' :: cs => ⟨('\x22' :: read).reverse, cs, .ok (.string (String.ofList value.reverse))⟩
  | ['\x5c'] => ⟨('\x5c' :: read).reverse, [], .error .unterminatedEscape⟩
  | '\x5c' :: e :: cs =>
    match unescape? e with
    | some c => scanString (e :: '\x5c' :: read) (c :: value) cs
    | none => ⟨(e :: '\x5c' :: read).reverse, cs, .error (.unknownEscape e)⟩
  | c :: cs => scanString (c :: read) (c :: value) cs

/-- The number written as `whole.fraction`, refused above what the target's floats can hold. -/
def numberToken (whole fraction text : List Char) : Except LexFault TokenKind :=
  let value := Binary64.ofDecimal false (digitsValue (whole ++ fraction)) (-(fraction.length : Int))
  if Binary64.maxBinary32.magnitude < value.magnitude then
    .error (.numberOutOfRange (String.ofList text))
  else .ok (.number value)

/-- A number from its first digit. A point belongs to it only if a digit follows. -/
def scanNumber (c : Char) (cs : List Char) : Scan :=
  let whole := c :: cs.takeWhile isDigit
  match cs.dropWhile isDigit with
  | '.' :: d :: ds =>
    if isDigit d then
      let fraction := d :: ds.takeWhile isDigit
      let text := whole ++ '.' :: fraction
      ⟨text, ds.dropWhile isDigit, numberToken whole fraction text⟩
    else ⟨whole, '.' :: d :: ds, numberToken whole [] whole⟩
  | rest => ⟨whole, rest, numberToken whole [] whole⟩

/-- A name or keyword from its first letter. -/
def scanName (c : Char) (cs : List Char) : Scan :=
  let lexeme := c :: cs.takeWhile isNamePart
  let text := String.ofList lexeme
  let kind :=
    match Keyword.ofText? text with
    | some k => .word k
    | none => .name text
  ⟨lexeme, cs.dropWhile isNamePart, .ok kind⟩

/-- A mark that may have `=` as its second character. -/
def scanPaired (c : Char) (alone withEqual : Mark) : List Char → Scan
  | '=' :: cs => ⟨[c, '='], cs, .ok (.mark withEqual)⟩
  | cs => ⟨[c], cs, .ok (.mark alone)⟩

/-- The token that begins with the character `c`, which is neither blank nor starts a comment. -/
def scan (c : Char) (cs : List Char) : Scan :=
  match Mark.single? c with
  | some m => ⟨[c], cs, .ok (.mark m)⟩
  | none =>
    match Mark.paired? c with
    | some (alone, withEqual) => scanPaired c alone withEqual cs
    | none =>
      if c = '\x22' then scanString ['\x22'] [] cs
      else if isDigit c then scanNumber c cs
      else if isNameStart c then scanName c cs
      else ⟨[c], cs, .error (.unexpected c)⟩

/-! ### Nothing is lost -/

theorem scanString_append (read value cs : List Char) :
    (scanString read value cs).lexeme ++ (scanString read value cs).rest = read.reverse ++ cs := by
  fun_induction scanString read value cs <;> simp_all

/-- A scan of a string has at least read what it was given as read. -/
theorem scanString_lexeme_ne_nil (read value cs : List Char) (h : read ≠ []) :
    (scanString read value cs).lexeme ≠ [] := by
  fun_induction scanString read value cs <;> simp_all

theorem scanNumber_append (c : Char) (cs : List Char) :
    (scanNumber c cs).lexeme ++ (scanNumber c cs).rest = c :: cs := by
  have h := List.takeWhile_append_dropWhile (p := isDigit) (l := cs)
  unfold scanNumber
  split
  · rename_i d ds hd
    rw [hd] at h
    have hds := List.takeWhile_append_dropWhile (p := isDigit) (l := ds)
    split <;> simp_all
  · simp_all

theorem scanName_append (c : Char) (cs : List Char) :
    (scanName c cs).lexeme ++ (scanName c cs).rest = c :: cs := by
  simp [scanName]

theorem scanPaired_append (c : Char) (a b : Mark) (cs : List Char) :
    (scanPaired c a b cs).lexeme ++ (scanPaired c a b cs).rest = c :: cs := by
  fun_cases scanPaired c a b cs <;> simp

/-- The characters of a token and the rest make up the input. -/
theorem scan_append (c : Char) (cs : List Char) :
    (scan c cs).lexeme ++ (scan c cs).rest = c :: cs := by
  unfold scan
  split
  · simp
  · split
    · exact scanPaired_append ..
    · split
      · simp_all [scanString_append]
      · split
        · exact scanNumber_append ..
        · split
          · exact scanName_append ..
          · simp

/-- A token has at least one character. -/
theorem scan_lexeme_ne_nil (c : Char) (cs : List Char) : (scan c cs).lexeme ≠ [] := by
  unfold scan
  split
  · simp
  · split
    · unfold scanPaired; split <;> simp
    · split
      · exact scanString_lexeme_ne_nil _ _ _ (by simp)
      · split
        · unfold scanNumber; split
          · split <;> simp
          · simp
        · split
          · simp [scanName]
          · simp

/-- What follows a token is shorter than the input. -/
theorem scan_rest_length (c : Char) (cs : List Char) : (scan c cs).rest.length ≤ cs.length := by
  have h := congrArg List.length (scan_append c cs)
  have hne := List.length_pos_iff.mpr (scan_lexeme_ne_nil c cs)
  simp only [List.length_append, List.length_cons] at h
  omega

/-! ## Positions -/

/-- A place in a text: byte offset, line and column. -/
structure Position where
  offset : Nat
  line : Nat
  col : Nat
deriving DecidableEq, Repr, Inhabited

namespace Position

/-- The beginning of a text. -/
def start : Position := ⟨0, 1, 1⟩

/-- The place after one more character. -/
def after (p : Position) (c : Char) : Position :=
  if c = '\n' then ⟨p.offset + c.utf8Size, p.line + 1, 1⟩
  else ⟨p.offset + c.utf8Size, p.line, p.col + 1⟩

/-- The place after several more characters. -/
def afterAll (p : Position) (cs : List Char) : Position := cs.foldl after p

/-- The span from one place to another. -/
def spanTo (p q : Position) : Span := ⟨p.offset, q.offset, p.line, p.col⟩

end Position

/-- The text still to be read, and the place where it begins. -/
structure Cursor where
  rest : List Char
  position : Position
deriving DecidableEq, Repr, Inhabited

namespace Cursor

/-- The cursor at the beginning of a text. -/
def ofText (s : String) : Cursor := ⟨s.toList, .start⟩

/-- The cursor after the characters in front that satisfy `p`. -/
def dropWhile (p : Char → Bool) (k : Cursor) : Cursor :=
  ⟨k.rest.dropWhile p, k.position.afterAll (k.rest.takeWhile p)⟩

theorem dropWhile_length_le (p : Char → Bool) (k : Cursor) :
    (k.dropWhile p).rest.length ≤ k.rest.length :=
  (List.dropWhile_suffix p).length_le

/-- Dropping at least the first character leaves a shorter text. -/
theorem dropWhile_length_lt {p : Char → Bool} {k : Cursor} {c : Char} {cs : List Char}
    (h : k.rest = c :: cs) (hc : p c = true) : (k.dropWhile p).rest.length < k.rest.length := by
  have := (List.dropWhile_suffix p (l := cs)).length_le
  simp only [dropWhile, h, List.dropWhile_cons, hc, if_true, List.length_cons]
  omega

/-- The cursor at the next token: blanks and comments are passed over. -/
def skipTrivia (k : Cursor) : Cursor :=
  match _h : (k.dropWhile Text.isBlank).rest with
  | '/' :: '/' :: _ => skipTrivia ((k.dropWhile Text.isBlank).dropWhile (· ≠ '\n'))
  | _ => k.dropWhile Text.isBlank
termination_by k.rest.length
decreasing_by
  have h1 := dropWhile_length_le Text.isBlank k
  have h2 := dropWhile_length_lt (p := (· ≠ '\n')) _h (by decide)
  omega

theorem skipTrivia_length_le (k : Cursor) : k.skipTrivia.rest.length ≤ k.rest.length := by
  fun_induction skipTrivia k with
  | case1 k _ _ ih =>
    exact Nat.le_trans ih (Nat.le_trans (dropWhile_length_le _ _) (dropWhile_length_le _ _))
  | case2 k _ => exact dropWhile_length_le _ _

/-- The next token or fault, and the cursor after it. At the end there is always `endOfInput`. -/
def next (k : Cursor) : Except LexError Token × Cursor :=
  let k := k.skipTrivia
  match k.rest with
  | [] => (.ok ⟨.endOfInput, k.position.spanTo k.position⟩, k)
  | c :: cs =>
    let s := scan c cs
    let stop := k.position.afterAll s.lexeme
    let span := k.position.spanTo stop
    let outcome :=
      match s.outcome with
      | .ok kind => .ok ⟨kind, span⟩
      | .error fault => .error ⟨fault, span⟩
    (outcome, ⟨s.rest, stop⟩)

/-- Unless the text ends, the cursor moves on. -/
theorem next_length_lt {k k' : Cursor} {t : Token} (h : k.next = (.ok t, k'))
    (ht : t.kind ≠ .endOfInput) : k'.rest.length < k.rest.length := by
  have hk := skipTrivia_length_le k
  unfold next at h
  dsimp only at h
  split at h
  · simp only [Prod.mk.injEq, Except.ok.injEq] at h
    exact absurd (h.1 ▸ rfl) ht
  · rename_i c cs hc
    simp only [Prod.mk.injEq] at h
    have hs := scan_rest_length c cs
    rw [← h.2]
    simp only [hc, List.length_cons] at hk
    simp only
    omega

/--
The tokens up to the end of the text, or the first fault; either way with the
cursor where reading stopped. `done` holds the tokens so far, backwards.
-/
def tokensFrom (done : List Token) (k : Cursor) : Except LexError (List Token) × Cursor :=
  match _h : k.next with
  | (.error e, k') => (.error e, k')
  | (.ok t, k') =>
    if _ht : t.kind = .endOfInput then (.ok (t :: done).reverse, k')
    else tokensFrom (t :: done) k'
termination_by k.rest.length
decreasing_by exact next_length_lt _h _ht

/-- The tokens up to the end of the text, or the first fault. -/
def tokens (k : Cursor) : Except LexError (List Token) × Cursor := tokensFrom [] k

end Cursor

/-- The tokens of a text. -/
def lex (source : String) : Except LexError (List Token) := (Cursor.ofText source).tokens.1

end Dam
