import Dam.Toml.Scalar

/-!
# Reading TOML

The text is read from left to right, by one function per construct that gives what it has
read and the rest of the text. Line ends end an assignment; inside the brackets of an
array they are passed over like blanks.

Nesting is limited: at most `bracketLimit` brackets and braces may be open at a time, and
a key has at most as many parts.
-/

namespace Dam.Toml

/-- How many brackets may be open at a time. -/
def bracketLimit : Nat := 79

/-! ## Characters -/

/-- Characters of keys without quotes. -/
def isBare (c : Char) : Bool :=
  isDigit c || ('a' ≤ c && c ≤ 'z') || ('A' ≤ c && c ≤ 'Z') || c == '_' || c == '-'

/-- Characters that may stand in comments and strings as they are: all but control characters. -/
def isPlain (c : Char) : Bool := c == '\t' || (0x20 ≤ c.toNat && c.toNat != 0x7F)

/-- The character with a number in hexadecimal digits. Surrogates are none. -/
def hexChar? (digits : List Char) : Option Char := do
  let n ← digits.foldlM (fun n c => do some (n * 16 + (← hexValue? c))) 0
  if n.isValidChar then some (Char.ofNat n) else none

/-- The character a backslash and a letter stand for. -/
def unescape? : Char → Option Char
  | 'b' => some '\x08'
  | 't' => some '\t'
  | 'n' => some '\n'
  | 'f' => some '\x0c'
  | 'r' => some '\r'
  | '\x22' => some '\x22'
  | '\x5c' => some '\x5c'
  | _ => none

/-! ## Strings -/

/-- The rest of a string in double quotes. `done` holds the content so far, backwards. -/
def basic (done : List Char) : List Char → Option (String × List Char)
  | '\x22' :: cs => some (String.ofList done.reverse, cs)
  | '\x5c' :: 'u' :: c1 :: c2 :: c3 :: c4 :: cs =>
    match hexChar? [c1, c2, c3, c4] with
    | some c => basic (c :: done) cs
    | none => none
  | '\x5c' :: 'U' :: c1 :: c2 :: c3 :: c4 :: c5 :: c6 :: c7 :: c8 :: cs =>
    match hexChar? [c1, c2, c3, c4, c5, c6, c7, c8] with
    | some c => basic (c :: done) cs
    | none => none
  | '\x5c' :: e :: cs =>
    match unescape? e with
    | some c => basic (c :: done) cs
    | none => none
  | c :: cs => if isPlain c && c != '\x5c' then basic (c :: done) cs else none
  | [] => none

/-- The rest of a string in single quotes, which has no escapes. -/
def literal (done : List Char) : List Char → Option (String × List Char)
  | '\x27' :: cs => some (String.ofList done.reverse, cs)
  | c :: cs => if isPlain c then literal (c :: done) cs else none
  | [] => none

/-- The end of a string in three quotes. Up to two more quotes belong to the content. -/
def closing (quote : Char) (done : List Char) : List Char → String × List Char
  | c :: d :: cs =>
    if c = quote ∧ d = quote then (String.ofList (d :: c :: done).reverse, cs)
    else if c = quote then (String.ofList (c :: done).reverse, d :: cs)
    else (String.ofList done.reverse, c :: d :: cs)
  | [c] => if c = quote then (String.ofList (c :: done).reverse, []) else
      (String.ofList done.reverse, [c])
  | [] => (String.ofList done.reverse, [])

/-- The rest of a string in three single quotes. -/
def literalLines (done : List Char) : List Char → Option (String × List Char)
  | '\x27' :: '\x27' :: '\x27' :: cs => some (closing '\x27' done cs)
  | '\n' :: cs => literalLines ('\n' :: done) cs
  | '\r' :: '\n' :: cs => literalLines ('\n' :: done) cs
  | c :: cs => if isPlain c then literalLines (c :: done) cs else none
  | [] => none

/--
Where a string in three double quotes is: in a line, after a backslash that ends the
line, or in the blanks after that.
-/
inductive LineMode where
  | text | lineEnd | blanks
deriving DecidableEq

/--
The rest of a string in three double quotes. A backslash at the end of a line
swallows the blanks after it.
-/
def basicLines (mode : LineMode) (done : List Char) : List Char → Option (String × List Char)
  | [] => none
  | c :: cs =>
    match mode with
    | .lineEnd =>
      if c = ' ' ∨ c = '\t' then basicLines .lineEnd done cs
      else if c = '\n' then basicLines .blanks done cs
      else if c = '\r' then
        match cs with
        | '\n' :: cs => basicLines .blanks done cs
        | _ => none
      else none
    | .blanks =>
      if c = ' ' ∨ c = '\t' ∨ c = '\n' then basicLines .blanks done cs
      else if c = '\r' then
        match cs with
        | '\n' :: cs => basicLines .blanks done cs
        | _ => none
      else content c cs
    | .text => content c cs
where
  /-- A character of the content. -/
  content (c : Char) (cs : List Char) : Option (String × List Char) :=
    match c, cs with
    | '\x22', '\x22' :: '\x22' :: cs => some (closing '\x22' done cs)
    | '\n', cs => basicLines .text ('\n' :: done) cs
    | '\r', '\n' :: cs => basicLines .text ('\n' :: done) cs
    | '\x5c', 'u' :: c1 :: c2 :: c3 :: c4 :: cs =>
      match hexChar? [c1, c2, c3, c4] with
      | some c => basicLines .text (c :: done) cs
      | none => none
    | '\x5c', 'U' :: c1 :: c2 :: c3 :: c4 :: c5 :: c6 :: c7 :: c8 :: cs =>
      match hexChar? [c1, c2, c3, c4, c5, c6, c7, c8] with
      | some c => basicLines .text (c :: done) cs
      | none => none
    | '\x5c', e :: cs =>
      if e = ' ' ∨ e = '\t' ∨ e = '\n' ∨ e = '\r' then basicLines .lineEnd done (e :: cs)
      else
        match unescape? e with
        | some c => basicLines .text (c :: done) cs
        | none => none
    | c, cs => if isPlain c && c != '\x5c' then basicLines .text (c :: done) cs else none

/-- The content of a string in three quotes begins in the next line if its first line is empty. -/
def skipFirstLineEnd : List Char → List Char
  | '\n' :: cs => cs
  | '\r' :: '\n' :: cs => cs
  | cs => cs

/-! ## Blanks and comments -/

/-- The text after blanks. -/
def skipBlanks (cs : List Char) : List Char := cs.dropWhile fun c => c == ' ' || c == '\t'

/-- The text after blanks, line ends and comments. -/
def skipLines (inComment : Bool) : List Char → Option (List Char)
  | [] => some []
  | '\n' :: cs => skipLines false cs
  | '\r' :: '\n' :: cs => skipLines false cs
  | c :: cs =>
    if inComment then if isPlain c then skipLines true cs else none
    else if c = '#' then skipLines true cs
    else if c = ' ' ∨ c = '\t' then skipLines false cs
    else some (c :: cs)

/-- The text after the rest of a line, on which only a comment may stand. -/
def endLine (cs : List Char) : Option (List Char) :=
  let rest :=
    match skipBlanks cs with
    | '#' :: cs => cs.dropWhile isPlain
    | cs => cs
  match rest with
  | [] => some []
  | '\n' :: cs => some cs
  | '\r' :: '\n' :: cs => some cs
  | _ => none

/-! ## Keys and values -/

/-- A part of a key. -/
def keyPart : List Char → Option (String × List Char)
  | '\x22' :: cs => basic [] cs
  | '\x27' :: cs => literal [] cs
  | cs =>
    let name := cs.takeWhile isBare
    if name.isEmpty then none else some (String.ofList name, cs.dropWhile isBare)

/-- A key with at most `more` parts and with the blanks around it. -/
def key : (more : Nat) → List Char → Option (TomlKey × List Char)
  | 0, _ => none
  | more + 1, cs => do
    let (part, cs) ← keyPart (skipBlanks cs)
    match skipBlanks cs with
    | '.' :: cs =>
      let (parts, cs) ← key more cs
      some (part :: parts, cs)
    | cs => some ([part], cs)

mutual

/-- A value in at most `depth` brackets. Each bracket takes two steps of `fuel`, each item one. -/
def value : (fuel depth : Nat) → List Char → Option (Toml × List Char)
  | 0, _, _ => none
  | fuel + 1, depth, cs =>
    match cs with
    | '\x22' :: '\x22' :: '\x22' :: cs =>
      (basicLines .text [] (skipFirstLineEnd cs)).map fun (s, cs) => (.string s, cs)
    | '\x22' :: cs => (basic [] cs).map fun (s, cs) => (.string s, cs)
    | '\x27' :: '\x27' :: '\x27' :: cs =>
      (literalLines [] (skipFirstLineEnd cs)).map fun (s, cs) => (.string s, cs)
    | '\x27' :: cs => (literal [] cs).map fun (s, cs) => (.string s, cs)
    | '[' :: cs =>
      match depth with
      | 0 => none
      | depth + 1 => items fuel depth [] cs
    | '\x7b' :: cs =>
      match depth, skipBlanks cs with
      | 0, _ => none
      | _ + 1, '\x7d' :: cs => some (.table [], cs)
      | depth + 1, cs => pairs fuel depth [] cs
    | cs => readScalar cs

/-- The rest of an array. A comma may stand behind its last item. -/
def items : (fuel depth : Nat) → (done : List Toml) → List Char → Option (Toml × List Char)
  | 0, _, _, _ => none
  | fuel + 1, depth, done, cs => do
    match ← skipLines false cs with
    | ']' :: cs => some (.array done.reverse, cs)
    | cs =>
      let (v, cs) ← value fuel depth cs
      match ← skipLines false cs with
      | ']' :: cs => some (.array (v :: done).reverse, cs)
      | ',' :: cs => items fuel depth (v :: done) cs
      | _ => none

/-- The rest of a table inside a value. It stands in one line, without a comma at its end. -/
def pairs : (fuel depth : Nat) → (done : List (TomlKey × Toml)) → List Char →
    Option (Toml × List Char)
  | 0, _, _, _ => none
  | fuel + 1, depth, done, cs => do
    match ← key bracketLimit cs with
    | (k, '=' :: cs) =>
      let (v, cs) ← value fuel depth (skipBlanks cs)
      match skipBlanks cs with
      | '\x7d' :: cs =>
        let all := ((k, v) :: done).reverse
        if pairsConsistent all then some (.table all, cs) else none
      | ',' :: cs => pairs fuel depth ((k, v) :: done) cs
      | _ => none
    | _ => none

end

/-! ## Documents -/

/-- The lines of a document. `current` is the table that the last header has opened. -/
def lines : (fuel : Nat) → (current : TomlKey) → Document → List Char → Option Document
  | 0, _, _, _ => none
  | fuel + 1, current, done, cs => do
    match ← skipLines false cs with
    | [] => some done
    | '[' :: cs =>
      match ← key bracketLimit cs with
      | (k, ']' :: cs) => lines fuel k { done with headers := k :: done.headers } (← endLine cs)
      | _ => none
    | cs =>
      match ← key bracketLimit cs with
      | (k, '=' :: cs) =>
        let (v, cs) ← value (2 * cs.length + 1) bracketLimit (skipBlanks cs)
        lines fuel current { done with assignments := ⟨current, k, v⟩ :: done.assignments }
          (← endLine cs)
      | _ => none

/-- The document of a text. A byte order mark in front of it is passed over. -/
def parse? (text : String) : Option Document := do
  let cs :=
    match text.toList with
    | '\ufeff' :: cs => cs
    | cs => cs
  let d ← lines (cs.length + 1) [] ⟨[], []⟩ cs
  if d.isConsistent then some d else none

end Dam.Toml
