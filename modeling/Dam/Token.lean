import Dam.Number.Decimal
import Dam.Span

/-!
# Tokens

A token is a keyword, a punctuation mark, a number, a string or a name, with the
span it was read from. The last token of a text is always `endOfInput`.

Every keyword and mark has one spelling, given by `Keyword.text` and `Mark.text`;
the lexer looks them up in these tables and messages print them from there.
-/

namespace Dam

/-- The words that are not names. The last three are reserved and start no construct. -/
inductive Keyword where
  | letWord | printWord | readWord | ifWord | elseWord | whileWord
  | andWord | orWord | trueWord | falseWord | nullWord
  | forWord | returnWord | toWord
deriving DecidableEq, Repr, Inhabited

namespace Keyword

/-- Every keyword. -/
def all : List Keyword :=
  [.letWord, .printWord, .readWord, .ifWord, .elseWord, .whileWord, .andWord, .orWord,
    .trueWord, .falseWord, .nullWord, .forWord, .returnWord, .toWord]

/-- The spelling of a keyword. -/
def text : Keyword → String
  | .letWord => "let"
  | .printWord => "print"
  | .readWord => "read"
  | .ifWord => "if"
  | .elseWord => "else"
  | .whileWord => "while"
  | .andWord => "and"
  | .orWord => "or"
  | .trueWord => "true"
  | .falseWord => "false"
  | .nullWord => "null"
  | .forWord => "for"
  | .returnWord => "return"
  | .toWord => "to"

/-- The keyword with a given spelling. -/
def ofText? (s : String) : Option Keyword := all.find? fun k => k.text == s

/-- Keywords that begin a statement; the parser resumes in front of them after a fault. -/
def startsStatement : Keyword → Bool
  | .letWord | .forWord | .ifWord | .whileWord | .printWord | .readWord | .returnWord => true
  | _ => false

end Keyword

/-- Brackets, punctuation and operators. -/
inductive Mark where
  | leftParen | rightParen | leftBrace | rightBrace
  | comma | dot | semicolon
  | minus | plus | star | slash
  | bang | bangEqual | equal | equalEqual | greater | greaterEqual | less | lessEqual
deriving DecidableEq, Repr, Inhabited

namespace Mark

/-- The spelling of a mark. -/
def text : Mark → String
  | .leftParen => "("
  | .rightParen => ")"
  | .leftBrace => "\x7b"
  | .rightBrace => "\x7d"
  | .comma => ","
  | .dot => "."
  | .semicolon => ";"
  | .minus => "-"
  | .plus => "+"
  | .star => "*"
  | .slash => "/"
  | .bang => "!"
  | .bangEqual => "!="
  | .equal => "="
  | .equalEqual => "=="
  | .greater => ">"
  | .greaterEqual => ">="
  | .less => "<"
  | .lessEqual => "<="

/-- Marks of one character that no longer mark begins with. -/
def single? : Char → Option Mark
  | '(' => some .leftParen
  | ')' => some .rightParen
  | '\x7b' => some .leftBrace
  | '\x7d' => some .rightBrace
  | ',' => some .comma
  | '.' => some .dot
  | ';' => some .semicolon
  | '-' => some .minus
  | '+' => some .plus
  | '*' => some .star
  | '/' => some .slash
  | _ => none

/-- Characters that are a mark alone and another one with `=` after them. -/
def paired? : Char → Option (Mark × Mark)
  | '!' => some (.bang, .bangEqual)
  | '=' => some (.equal, .equalEqual)
  | '>' => some (.greater, .greaterEqual)
  | '<' => some (.less, .lessEqual)
  | _ => none

end Mark

/-- What a token says, apart from where it stands. -/
inductive TokenKind where
  | number (value : Binary64)
  | string (value : String)
  | name (text : String)
  | word (keyword : Keyword)
  | mark (mark : Mark)
  | endOfInput
deriving DecidableEq, Repr, Inhabited

namespace TokenKind

/-- Whether this is the end of the text. -/
def isEnd : TokenKind → Bool
  | .endOfInput => true
  | _ => false

/-- Whether the parser resumes in front of this token after a fault. -/
def startsStatement : TokenKind → Bool
  | .word k => k.startsStatement
  | _ => false

/-- The token as messages show it. A string stands in quotes, with its content unescaped. -/
def text : TokenKind → String
  | .number x => x.plain
  | .string s => "\"" ++ s ++ "\""
  | .name s => s
  | .word k => k.text
  | .mark m => m.text
  | .endOfInput => "<EOF>"

end TokenKind

/-- A token and its place. -/
structure Token where
  kind : TokenKind
  span : Span
deriving DecidableEq, Repr, Inhabited

end Dam
