/-!
# Value types

The types of the values a program computes with. They are inferred, never written
down in a program, and appear in messages and in instructions.
-/

namespace Dam

/-- The type of a value. -/
inductive ValueType where
  | numeric | string | bool
deriving DecidableEq, Repr, Inhabited

namespace ValueType

/-- Every type. -/
def all : List ValueType := [.numeric, .string, .bool]

/-- The type as messages show it. -/
def text : ValueType → String
  | .numeric => "double"
  | .string => "str"
  | .bool => "bool"

/-- The type in a method descriptor of the target machine. -/
def descriptor : ValueType → String
  | .numeric => "F"
  | .string => "Ljava/lang/String;"
  | .bool => "Z"

/-- The first letter of the instructions that load and store such a value. -/
def letter : ValueType → Char
  | .numeric => 'f'
  | .string => 'a'
  | .bool => 'i'

end ValueType

end Dam
