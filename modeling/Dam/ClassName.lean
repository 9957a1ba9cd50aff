import Dam.Path
import Dam.Token.Lexer

/-!
# Class names

A source file compiles to a class named after it. The name has to be an identifier
of the target platform, in ASCII, and none of its reserved words.
-/

namespace Dam

namespace ClassName

/-- Words that name no class. -/
def reserved : List String :=
  ["abstract", "assert", "boolean", "break", "byte", "case", "catch", "char", "class", "const",
    "continue", "default", "do", "double", "else", "enum", "extends", "final", "finally", "float",
    "for", "goto", "if", "implements", "import", "instanceof", "int", "interface", "long",
    "native", "new", "package", "private", "protected", "public", "return", "short", "static",
    "strictfp", "super", "switch", "synchronized", "this", "throw", "throws", "transient", "try",
    "void", "volatile", "while", "true", "false", "null"]

/-- Characters a class name can begin with. -/
def isStart (c : Char) : Bool := isNameStart c || c == '$'

/-- Characters a class name can go on with. -/
def isPart (c : Char) : Bool := isNamePart c || c == '$'

/-- Whether a text is a class name. -/
def isValid (name : String) : Bool :=
  match name.toList with
  | [] => false
  | c :: cs => isStart c && cs.all isPart && !reserved.contains name

end ClassName

/-- The name of the class that a file compiles to, unless its stem is no class name. -/
def Path.className? (p : Path) : Option String :=
  if ClassName.isValid p.stem then some p.stem else none

end Dam
