import Dam.Json
import Dam.Text.Digit

/-!
# Reading JSON

Reading undoes writing step by step: the text is split into tokens, and the tokens
are put together by a machine with a stack of the arrays and objects that are still
open. The machine takes one token at a time, so nesting costs no recursion.
-/

namespace Dam.Json

/-! ## Tokens -/

/-- White space between tokens. -/
def isSpace (c : Char) : Bool := c == ' ' || c == '\t' || c == '\n' || c == '\r'

/-- Four hexadecimal digits. -/
def hexUnit? : List Char → Option (Nat × List Char)
  | a :: b :: c :: d :: cs => do
    let a ← hexValue? a
    let b ← hexValue? b
    let c ← hexValue? c
    let d ← hexValue? d
    some (((a * 16 + b) * 16 + c) * 16 + d, cs)
  | _ => none

/-- The character a backslash and a letter stand for. -/
def unescape? : Char → Option Char
  | '\x22' => some '\x22'
  | '\x5c' => some '\x5c'
  | '/' => some '/'
  | 'b' => some '\x08'
  | 'f' => some '\x0c'
  | 'n' => some '\n'
  | 'r' => some '\r'
  | 't' => some '\t'
  | _ => none

/--
The next unit of a string, which is not its closing quote: the number of a character, or
sixteen bits that are written as an escape.
-/
def stringUnit? : List Char → Option (Nat × List Char)
  | [] => none
  | '\x5c' :: 'u' :: cs => hexUnit? cs
  | '\x5c' :: e :: cs => (unescape? e).map fun c => (c.toNat, cs)
  | c :: cs => if c.toNat < 32 ∨ c = '\x5c' then none else some (c.toNat, cs)

theorem hexUnit?_length {cs rest : List Char} {n : Nat} (h : hexUnit? cs = some (n, rest)) :
    rest.length < cs.length := by
  unfold hexUnit? at h
  split at h
  · simp only [Option.bind_eq_bind, Option.bind_eq_some_iff, Option.some.injEq, Prod.mk.injEq] at h
    obtain ⟨_, _, _, _, _, _, _, _, _, rfl⟩ := h
    simp only [List.length_cons]
    omega
  · simp at h

theorem stringUnit?_length {cs rest : List Char} {n : Nat} (h : stringUnit? cs = some (n, rest)) :
    rest.length < cs.length := by
  unfold stringUnit? at h
  split at h
  · simp at h
  · have := hexUnit?_length h
    simp only [List.length_cons]
    omega
  · obtain ⟨_, _, h⟩ := Option.map_eq_some_iff.mp h
    simp only [Prod.mk.injEq] at h
    simp only [List.length_cons, ← h.2]
    omega
  · split at h
    · simp at h
    · simp only [Option.some.injEq, Prod.mk.injEq] at h
      simp [← h.2]

/-- The units of a string after its opening quote. `done` holds those so far, backwards. -/
def readUnits (done : List Nat) : List Char → Option (List Nat × List Char)
  | [] => none
  | c :: cs =>
    if c = '\x22' then some (done.reverse, cs)
    else
      match _h : stringUnit? (c :: cs) with
      | none => none
      | some (n, rest) => readUnits (n :: done) rest
termination_by cs => cs.length
decreasing_by exact stringUnit?_length _h

theorem readUnits_length {done units : List Nat} {cs rest : List Char}
    (h : readUnits done cs = some (units, rest)) : rest.length < cs.length := by
  fun_induction readUnits done cs with
  | case1 => simp at h
  | case2 done cs =>
    simp only [Option.some.injEq, Prod.mk.injEq] at h
    simp [← h.2]
  | case3 => simp at h
  | case4 done c cs _ n rest' h1 ih =>
    have := stringUnit?_length h1
    have := ih h
    omega

/-- Whether a unit is the first half of a pair of surrogates. -/
def isHighSurrogate (n : Nat) : Bool := 0xD800 ≤ n && n < 0xDC00

/-- Whether a unit is the second half of a pair of surrogates. -/
def isLowSurrogate (n : Nat) : Bool := 0xDC00 ≤ n && n < 0xE000

/--
The text that units stand for. Two halves of a pair make one character; a half that stands
alone makes none. `done` holds the characters so far, backwards.
-/
def joinUnits? (done : List Char) : List Nat → Option String
  | [] => some (String.ofList done.reverse)
  | n :: ns =>
    if isHighSurrogate n then
      match ns with
      | m :: ns =>
        if isLowSurrogate m then
          joinUnits? (Char.ofNat (0x10000 + (n - 0xD800) * 0x400 + (m - 0xDC00)) :: done) ns
        else none
      | [] => none
    else if isLowSurrogate n then none
    else joinUnits? (Char.ofNat n :: done) ns

/-- The token of a string with given units. -/
def stringToken (units : List Nat) : Token :=
  match joinUnits? [] units with
  | some s => .string s
  | none => .illFormed

/-- One or more digits. -/
def readDigits (cs : List Char) : Option (List Char × List Char) :=
  let ds := cs.takeWhile isDigit
  if ds.isEmpty then none else some (ds, cs.dropWhile isDigit)

/-- Digits without a needless zero in front. -/
def readWhole : List Char → Option (List Char × List Char)
  | '0' :: cs => some (['0'], cs)
  | cs => readDigits cs

theorem readDigits_length {cs ds rest : List Char} (h : readDigits cs = some (ds, rest)) :
    rest.length < cs.length := by
  have hl := congrArg List.length (List.takeWhile_append_dropWhile (p := isDigit) (l := cs))
  simp only [readDigits] at h
  split at h
  · simp at h
  · rename_i hne
    simp only [Option.some.injEq, Prod.mk.injEq] at h
    have : 0 < (cs.takeWhile isDigit).length :=
      List.length_pos_iff.mpr fun h0 => hne (by simp [h0])
    simp only [List.length_append] at hl
    rw [← h.2]
    omega

theorem readWhole_length {cs ds rest : List Char} (h : readWhole cs = some (ds, rest)) :
    rest.length < cs.length := by
  unfold readWhole at h
  split at h
  · simp only [Option.some.injEq, Prod.mk.injEq] at h
    simp [← h.2]
  · exact readDigits_length h

/-- A point and the digits behind it, if there is a point. -/
def readFraction : List Char → Option (List Char × List Char)
  | '.' :: cs => do
    let (ds, cs) ← readDigits cs
    some ('.' :: ds, cs)
  | cs => some ([], cs)

/-- An exponent, if there is one. -/
def readExponent : List Char → Option (List Char × List Char)
  | c :: cs =>
    if c = 'e' ∨ c = 'E' then
      match cs with
      | '+' :: cs => do
        let (ds, cs) ← readDigits cs
        some (c :: '+' :: ds, cs)
      | '-' :: cs => do
        let (ds, cs) ← readDigits cs
        some (c :: '-' :: ds, cs)
      | cs => do
        let (ds, cs) ← readDigits cs
        some (c :: ds, cs)
    else some ([], c :: cs)
  | [] => some ([], [])

theorem readFraction_length {cs ds rest : List Char} (h : readFraction cs = some (ds, rest)) :
    rest.length ≤ cs.length := by
  unfold readFraction at h
  split at h
  · obtain ⟨⟨ds', cs'⟩, h1, h2⟩ := Option.bind_eq_some_iff.mp h
    have := readDigits_length h1
    simp only [Option.some.injEq, Prod.mk.injEq] at h2
    simp only [List.length_cons, ← h2.2]
    omega
  · simp only [Option.some.injEq, Prod.mk.injEq] at h
    simp [← h.2]

theorem readExponent_length {cs ds rest : List Char} (h : readExponent cs = some (ds, rest)) :
    rest.length ≤ cs.length := by
  unfold readExponent at h
  split at h
  · split at h
    · split at h <;>
      · obtain ⟨⟨ds', cs'⟩, h1, h2⟩ := Option.bind_eq_some_iff.mp h
        have := readDigits_length h1
        simp only [Option.some.injEq, Prod.mk.injEq] at h2
        simp only [List.length_cons, ← h2.2]
        omega
    · simp only [Option.some.injEq, Prod.mk.injEq] at h
      simp [← h.2]
  · simp only [Option.some.injEq, Prod.mk.injEq] at h
    simp [← h.2]

/-- A sign, if there is one. -/
def readSign : List Char → List Char × List Char
  | '-' :: cs => (['-'], cs)
  | cs => ([], cs)

theorem readSign_length (cs : List Char) : (readSign cs).2.length ≤ cs.length := by
  unfold readSign
  split <;> simp

/-- A number; its text is kept as it is. -/
def readNumber (cs : List Char) : Option (Token × List Char) := do
  let (whole, cs') ← readWhole (readSign cs).2
  let (fraction, cs') ← readFraction cs'
  let (exponent, cs') ← readExponent cs'
  some (.number (String.ofList ((readSign cs).1 ++ whole ++ fraction ++ exponent)), cs')

theorem readNumber_length {cs rest : List Char} {t : Token} (h : readNumber cs = some (t, rest)) :
    rest.length < cs.length := by
  obtain ⟨⟨_, cs1⟩, h1, h⟩ := Option.bind_eq_some_iff.mp h
  obtain ⟨⟨_, cs2⟩, h2, h⟩ := Option.bind_eq_some_iff.mp h
  obtain ⟨⟨_, cs3⟩, h3, h⟩ := Option.bind_eq_some_iff.mp h
  simp only [Option.some.injEq, Prod.mk.injEq] at h
  have := readSign_length cs
  have := readWhole_length h1
  have := readFraction_length h2
  have := readExponent_length h3
  rw [← h.2]
  omega

/-- The token in front of a text. -/
def readToken : List Char → Option (Token × List Char)
  | '[' :: cs => some (.leftBracket, cs)
  | ']' :: cs => some (.rightBracket, cs)
  | '\x7b' :: cs => some (.leftBrace, cs)
  | '\x7d' :: cs => some (.rightBrace, cs)
  | ',' :: cs => some (.comma, cs)
  | ':' :: cs => some (.colon, cs)
  | 'n' :: 'u' :: 'l' :: 'l' :: cs => some (.null, cs)
  | 't' :: 'r' :: 'u' :: 'e' :: cs => some (.bool true, cs)
  | 'f' :: 'a' :: 'l' :: 's' :: 'e' :: cs => some (.bool false, cs)
  | '\x22' :: cs => (readUnits [] cs).map fun (units, cs) => (stringToken units, cs)
  | cs => readNumber cs

theorem readToken_length {cs rest : List Char} {t : Token} (h : readToken cs = some (t, rest)) :
    rest.length < cs.length := by
  unfold readToken at h
  split at h
  case h_10 =>
    obtain ⟨⟨s, cs'⟩, h1, h2⟩ := Option.map_eq_some_iff.mp h
    have := readUnits_length h1
    simp only [Prod.mk.injEq] at h2
    simp only [List.length_cons, ← h2.2]
    omega
  case h_11 => exact readNumber_length h
  all_goals
    simp only [Option.some.injEq, Prod.mk.injEq] at h
    simp only [List.length_cons, ← h.2]
    omega

/-- The tokens of a text. -/
def readTokens (done : Array Token) : List Char → Option (Array Token)
  | [] => some done
  | c :: cs =>
    if isSpace c then readTokens done cs
    else
      match _h : readToken (c :: cs) with
      | none => none
      | some (t, rest) => readTokens (done.push t) rest
termination_by cs => cs.length
decreasing_by
  · simp
  · exact readToken_length _h

/-! ## Values -/

/-- An array or object that is still open: what it holds so far, backwards. -/
inductive Frame where
  | items (done : List Json)
  | members (done : List (Option String × Json)) (name : Option String)

/-- What may come next, and the arrays and objects that are open around it. -/
inductive Reading where
  | value (outer : List Frame)
  | firstItem (outer : List Frame)
  | firstName (outer : List Frame)
  | name (done : List (Option String × Json)) (outer : List Frame)
  | colon (done : List (Option String × Json)) (name : Option String) (outer : List Frame)
  | complete (value : Json) (outer : List Frame)

/-- The object with members in reverse order. A name that is no text is missing. -/
def closeObject (done : List (Option String × Json)) : Json :=
  match done.reverse.mapM fun (name, v) => name.map fun k => (k, v) with
  | some members => .object members
  | none => .illFormed

namespace Reading

/-- Reads the first token of a value. -/
def stepValue (outer : List Frame) : Token → Option Reading
  | .leftBracket => some (firstItem outer)
  | .leftBrace => some (firstName outer)
  | .null => some (complete .null outer)
  | .bool b => some (complete (.bool b) outer)
  | .number t => some (complete (.number t) outer)
  | .string s => some (complete (.string s) outer)
  | .illFormed => some (complete .illFormed outer)
  | _ => none

/-- Reads one token. -/
def step (r : Reading) (t : Token) : Option Reading :=
  match r with
  | value outer => stepValue outer t
  | firstItem outer =>
    match t with
    | .rightBracket => some (complete (.array []) outer)
    | t => stepValue (.items [] :: outer) t
  | firstName outer =>
    match t with
    | .rightBrace => some (complete (.object []) outer)
    | .string k => some (colon [] (some k) outer)
    | .illFormed => some (colon [] none outer)
    | _ => none
  | name done outer =>
    match t with
    | .string k => some (colon done (some k) outer)
    | .illFormed => some (colon done none outer)
    | _ => none
  | colon done k outer =>
    match t with
    | .colon => some (value (.members done k :: outer))
    | _ => none
  | complete v (.items done :: outer) =>
    match t with
    | .comma => some (value (.items (v :: done) :: outer))
    | .rightBracket => some (complete (.array (v :: done).reverse) outer)
    | _ => none
  | complete v (.members done k :: outer) =>
    match t with
    | .comma => some (name ((k, v) :: done) outer)
    | .rightBrace => some (complete (closeObject ((k, v) :: done)) outer)
    | _ => none
  | complete _ [] => none

/-- The value, if it is complete. -/
def result? : Reading → Option Json
  | complete v [] => some v
  | _ => none

end Reading

/-- The value that tokens form. -/
def ofTokens? (ts : List Token) : Option Json := do
  let r ← ts.foldlM Reading.step (.value [])
  r.result?

/-- The value of a JSON text. -/
def parse? (text : String) : Option Json := do
  let ts ← readTokens #[] text.toList
  ofTokens? ts.toList

end Dam.Json
