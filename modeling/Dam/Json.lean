import Dam.Text.Digit

/-!
# JSON values

A JSON value keeps the text of its numbers, so nothing is lost or rounded before
somebody asks for a number. A string may be no text, because escapes in it stand for
one half of a surrogate pair; such a value is there, but it has no content.

A value is written in two steps: `Json.tokens` lists its tokens, and a layout
turns the list into text. `Json.compact` puts nothing between the tokens,
`Json.pretty` gives every item and every member its own line, indented by two
blanks per level. So the two forms differ in white space only.
-/

namespace Dam

/--
A JSON value. Members of an object keep their order, and a name may occur twice. What is
`illFormed` is a string that is no text, or an object with such a name.
-/
inductive Json where
  | null
  | bool (value : Bool)
  | number (text : String)
  | string (value : String)
  | illFormed
  | array (items : List Json)
  | object (members : List (String × Json))
deriving Repr, Inhabited

namespace Json

/-- The pieces a JSON text consists of. -/
inductive Token where
  | leftBracket | rightBracket | leftBrace | rightBrace | comma | colon
  | null
  | bool (value : Bool)
  | number (text : String)
  | string (value : String)
  | illFormed
deriving DecidableEq, Repr, Inhabited

/-- A natural number. -/
def ofNat (n : Nat) : Json := .number (toString n)

/-! ## The tokens of a value -/

mutual

/-- Appends the tokens of a value. -/
def pushTokens (done : Array Token) : Json → Array Token
  | .null => done.push .null
  | .bool b => done.push (.bool b)
  | .number t => done.push (.number t)
  | .string s => done.push (.string s)
  | .illFormed => done.push .illFormed
  | .array items => (pushItems (done.push .leftBracket) true items).push .rightBracket
  | .object members => (pushMembers (done.push .leftBrace) true members).push .rightBrace

/-- Appends the tokens of items, with commas between them. -/
def pushItems (done : Array Token) (first : Bool) : List Json → Array Token
  | [] => done
  | v :: vs => pushItems (pushTokens (if first then done else done.push .comma) v) false vs

/-- Appends the tokens of members, with commas between them. -/
def pushMembers (done : Array Token) (first : Bool) : List (String × Json) → Array Token
  | [] => done
  | (k, v) :: ms =>
    pushMembers
      (pushTokens (((if first then done else done.push .comma).push (.string k)).push .colon) v)
      false ms

end

/-- The tokens of a value. -/
def tokens (v : Json) : List Token := (v.pushTokens #[]).toList

/-! ## Text -/

/-- A character inside quotes. Only quotes, backslashes and control characters are escaped. -/
def escape (c : Char) : String :=
  match c with
  | '\x22' => "\\\""
  | '\x5c' => "\\\\"
  | '\n' => "\\n"
  | '\t' => "\\t"
  | '\r' => "\\r"
  | '\x08' => "\\b"
  | '\x0c' => "\\f"
  | c =>
    if c.toNat < 32 then
      ("\\u00".push (hexDigit (c.toNat / 16))).push (hexDigit (c.toNat % 16))
    else String.singleton c

/-- A string in quotes. -/
def quote (s : String) : String :=
  (s.toList.foldl (fun acc c => acc ++ escape c) "\"").push '\x22'

/-- The text of a token. -/
def Token.text : Token → String
  | .leftBracket => "["
  | .rightBracket => "]"
  | .leftBrace => "\x7b"
  | .rightBrace => "\x7d"
  | .comma => ","
  | .colon => ":"
  | .null => "null"
  | .bool true => "true"
  | .bool false => "false"
  | .number t => t
  | .string s => quote s
  | .illFormed => "\"\\ud800\""

/-- The value without any white space. -/
def compact (v : Json) : String := v.tokens.foldl (fun acc t => acc ++ t.text) ""

/-- A new line at a level. -/
def newLine (level : Nat) : String := "\n" ++ String.ofList (List.replicate (2 * level) ' ')

/-- Appends tokens with a line for every item and member. Empty arrays and objects stay together. -/
def layout (acc : String) (level : Nat) : List Token → String
  | [] => acc
  | .leftBracket :: .rightBracket :: ts => layout (acc ++ "[]") level ts
  | .leftBrace :: .rightBrace :: ts => layout (acc ++ "\x7b\x7d") level ts
  | t :: ts =>
    match t with
    | .leftBracket | .leftBrace => layout (acc ++ t.text ++ newLine (level + 1)) (level + 1) ts
    | .rightBracket | .rightBrace => layout (acc ++ newLine (level - 1) ++ t.text) (level - 1) ts
    | .comma => layout (acc ++ "," ++ newLine level) level ts
    | .colon => layout (acc ++ ": ") level ts
    | t => layout (acc ++ t.text) level ts

/-- The value with one line for every item and member. -/
def pretty (v : Json) : String := layout "" 0 v.tokens

end Json

end Dam
