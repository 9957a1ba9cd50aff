import Dam.Path
import Dam.Text.Utf8

/-!
# Shell scripts

Assemblers are often given as short scripts for the shell. This is the syntax of the part of
the language that such scripts need: commands with their streams directed elsewhere,
conditions, loops, choices, and words with values and outputs in them.

Scripts and what they work on are bytes, which need not be text. In all strings of the shell
a byte is the character with its number.
-/

namespace Dam.Shell

/-! ## Bytes as characters -/

/-- The string of some bytes. -/
def ofBytes (bytes : Bytes) : String := String.ofList (bytes.map fun b => Char.ofNat b.toNat)

/-- The bytes of a string. -/
def toBytes (s : String) : Bytes := s.toList.map fun c => UInt8.ofNat c.toNat

/-- The string of the bytes of a text. -/
def ofText (s : String) : String := ofBytes (Utf8.encode s)

/-- The path that a string stands for. -/
def toPath (s : String) : Path := .ofText (Utf8.decodeLossy (toBytes s))

/-! ## Syntax -/

/-- What has a value in a script. -/
inductive Parameter where
  | name (x : String)
  | argument (n : Nat)
  | arguments
  | joined
  | count
  | status
  | processId
  | jobId

mutual

/-- A piece of a word. A value that is not quoted is split at blanks. -/
inductive Piece where
  | text (s : String)
  | parameter (p : Parameter) (quoted : Bool)
  | output (script : List Statement) (quoted : Bool)
  | arithmetic (expression : List Piece)

/-- Where a stream goes: to a file, or to where another stream goes. -/
inductive Redirect where
  | file (stream : Nat) (append : Bool) (target : List Piece)
  | copy (stream source : Nat)

/-- A statement. -/
inductive Statement where
  | simple (assignments : List (String × List Piece)) (words : List (List Piece))
      (redirects : List Redirect)
  | both (s t : Statement)
  | either (s t : Statement)
  | background (s : Statement)
  | ifElse (test yes no : List Statement) (redirects : List Redirect)
  | loop (test body : List Statement) (redirects : List Redirect)
  | choose (word : List Piece) (branches : List (List (List Piece) × List Statement))
  | subshell (items : List Statement) (redirects : List Redirect)

end

/-- A word, as its pieces. -/
abbrev Word := List Piece

end Dam.Shell
