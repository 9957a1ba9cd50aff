/-!
# Methods and their descriptors

A method descriptor lists the types of the parameters in parentheses and then the
type of the result. Values of the types `J` and `D` take two words of the operand
stack, all others one. Descriptors are read leniently: any text has word counts, and
they are at most twice its length.
-/

namespace Dam

/-- The text after the first semicolon. -/
def afterSemicolon (cs : List Char) : List Char := (cs.dropWhile (· ≠ ';')).drop 1

/-- The text after an element type, with the brackets of inner arrays in front of it. -/
def afterElement (cs : List Char) : List Char :=
  match cs.dropWhile (· = '[') with
  | [] => []
  | 'L' :: rest => afterSemicolon rest
  | _ :: rest => rest

theorem afterSemicolon_length_le (cs : List Char) : (afterSemicolon cs).length ≤ cs.length := by
  have := (List.dropWhile_suffix (p := (· ≠ ';')) (l := cs)).length_le
  simp only [afterSemicolon, List.length_drop]
  omega

theorem afterElement_length_le (cs : List Char) : (afterElement cs).length ≤ cs.length := by
  have h := (List.dropWhile_suffix (p := (· = '[')) (l := cs)).length_le
  unfold afterElement
  split
  · simp
  · rename_i rest heq
    have := afterSemicolon_length_le rest
    simp only [heq, List.length_cons] at h
    omega
  · rename_i heq
    simp only [heq, List.length_cons] at h
    omega

/-- The words that values of the listed types take. An array is one reference, whatever it holds. -/
def wordsOf : List Char → Nat
  | [] => 0
  | c :: cs =>
    if c = 'J' ∨ c = 'D' then 2 + wordsOf cs
    else if c = 'L' then 1 + wordsOf (afterSemicolon cs)
    else if c = '[' then 1 + wordsOf (afterElement cs)
    else 1 + wordsOf cs
termination_by cs => cs.length
decreasing_by
  · simp
  · have := afterSemicolon_length_le cs
    simp only [List.length_cons]
    omega
  · have := afterElement_length_le cs
    simp only [List.length_cons]
    omega
  · simp

/-- The types of the parameters in a descriptor: what stands between the first two parentheses. -/
def parameterTypes (descriptor : String) : List Char :=
  match descriptor.toList with
  | '(' :: cs => cs.takeWhile (· ≠ ')')
  | _ => []

/-- The type of the result in a descriptor: what stands behind the last closing parenthesis. -/
def resultType (descriptor : String) : List Char :=
  (descriptor.toList.reverse.takeWhile (· ≠ ')')).reverse

/-- A method of the target machine. -/
structure Method where
  className : String
  name : String
  descriptor : String
deriving DecidableEq, Repr, Inhabited

namespace Method

/-- The words that the arguments take, without the receiver. -/
def argumentWords (m : Method) : Nat := wordsOf (parameterTypes m.descriptor)

/-- The words that the result takes. -/
def resultWords (m : Method) : Nat :=
  match resultType m.descriptor with
  | ['V'] => 0
  | ['J'] | ['D'] => 2
  | _ => 1

/-- What a call does to the depth of the operand stack. -/
def effect (m : Method) : Int := (m.resultWords : Int) - m.argumentWords - 1

/-- The method as an operand of an instruction. -/
def text (m : Method) : String := m.className ++ "/" ++ m.name ++ m.descriptor

end Method

end Dam
