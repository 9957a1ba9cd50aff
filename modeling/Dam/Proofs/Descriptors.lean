import Dam.Code.Instr

/-!
# Word counts of descriptors

The depth of the operand stack is counted in words, and for a call the count is taken from
the text of the method's descriptor. The text is scanned from left to right with no grammar
in mind: a letter is a type, unless it begins the name of a class or stands behind the
bracket of an array. Everything depends on finding the place where a type ends, since
the letters and brackets that mean something elsewhere may also be part of a class name.

Here are the types that descriptors are made of, and their texts. `wordsOf_text` says that the
scanner takes one type at a time, whatever stands behind it.
-/

namespace Dam

/-! ## Types of the target machine -/

/-- Types of values that are no references. -/
inductive BaseType where
  | byte | char | double | float | int | long | short | boolean
deriving DecidableEq, Repr

/-- The letter for a type. -/
def BaseType.letter : BaseType → Char
  | byte => 'B'
  | char => 'C'
  | double => 'D'
  | float => 'F'
  | int => 'I'
  | long => 'J'
  | short => 'S'
  | boolean => 'Z'

/-- The name of a class: any text without the marks that end a name and a list of parameters. -/
structure ObjectName where
  chars : List Char
  unmarked : ∀ c ∈ chars, c ≠ ';' ∧ c ≠ ')'

/-- Types of fields and parameters. -/
inductive FieldType where
  | base (type : BaseType)
  | object (name : ObjectName)
  | array (element : FieldType)

namespace FieldType

/-- The type as descriptors have it. -/
def text : FieldType → List Char
  | base t => [t.letter]
  | object name => 'L' :: (name.chars ++ [';'])
  | array e => '[' :: e.text

/-- The words that a value of the type takes. -/
def words : FieldType → Nat
  | base .long | base .double => 2
  | base _ | object _ | array _ => 1

/-- The words that values of the types take, one value of each. -/
def totalWords : List FieldType → Nat
  | [] => 0
  | t :: ts => t.words + totalWords ts

end FieldType

/-- What a method takes and gives. Without a result it gives nothing. -/
structure MethodType where
  parameters : List FieldType
  result : Option FieldType

namespace MethodType

/-- The type of the result as descriptors have it. -/
def resultText (t : MethodType) : List Char := t.result.elim ['V'] FieldType.text

/-- The words that the result takes. -/
def resultWords (t : MethodType) : Nat := t.result.elim 0 FieldType.words

/-- The descriptor of a method. -/
def descriptor (t : MethodType) : String :=
  String.ofList ('(' :: (t.parameters.flatMap FieldType.text ++ ')' :: t.resultText))

end MethodType

/-! ## Where a type ends -/

theorem afterSemicolon_name (name : ObjectName) (rest : List Char) :
    afterSemicolon (name.chars ++ ';' :: rest) = rest := by
  have hname : ∀ c ∈ name.chars, decide (c ≠ ';') = true :=
    fun c hc => decide_eq_true (name.unmarked c hc).1
  rw [afterSemicolon, List.dropWhile_append_of_pos hname]
  rfl

namespace FieldType

variable (t : FieldType) (rest : List Char)

/-- Behind the bracket of an array, the scanner goes to the end of the elements' type. -/
theorem afterElement_text : afterElement (t.text ++ rest) = rest := by
  induction t with
  | base b => cases b <;> rfl
  | object name =>
      have hname : afterElement ((object name).text ++ rest) =
          afterSemicolon (name.chars ++ [';'] ++ rest) := rfl
      rw [hname, List.append_assoc]
      exact afterSemicolon_name name rest
  | array e ih => exact ih

/-- **The scanner takes one type at a time.** -/
theorem wordsOf_text : wordsOf (t.text ++ rest) = t.words + wordsOf rest := by
  cases t with
  | base b =>
      rw [text, List.singleton_append, wordsOf]
      cases b <;> rfl
  | object name =>
      have hend := afterSemicolon_name name rest
      rw [text, List.cons_append, List.append_assoc, wordsOf]
      exact congrArg (1 + wordsOf ·) hend
  | array e =>
      rw [text, List.cons_append, wordsOf]
      exact congrArg (1 + wordsOf ·) (e.afterElement_text rest)

theorem wordsOf_flatMap_text (ts : List FieldType) : wordsOf (ts.flatMap text) = totalWords ts := by
  induction ts with
  | nil => rw [List.flatMap_nil, wordsOf, totalWords]
  | cons t ts ih => rw [List.flatMap_cons, wordsOf_text, ih, totalWords]

/-! ## Where the parameters end -/

theorem paren_not_mem_text : ∀ c ∈ t.text, c ≠ ')' := by
  induction t with
  | base b =>
      intro c hc
      rw [List.mem_singleton.mp hc]
      cases b <;> decide
  | object name =>
      intro c hc
      rcases List.mem_cons.mp hc with rfl | hc
      · decide
      rcases List.mem_append.mp hc with hc | hc
      · exact (name.unmarked c hc).2
      · rw [List.mem_singleton.mp hc]
        decide
  | array e ih =>
      intro c hc
      rcases List.mem_cons.mp hc with rfl | hc
      · decide
      · exact ih c hc

end FieldType

/-- Texts without the mark are taken whole, up to the mark. -/
theorem takeWhile_ne_paren {cs : List Char} (h : ∀ c ∈ cs, c ≠ ')') (rest : List Char) :
    (cs ++ ')' :: rest).takeWhile (· ≠ ')') = cs := by
  rw [List.takeWhile_append_of_pos fun c hc => decide_eq_true (h c hc)]
  exact List.append_nil cs

namespace MethodType

variable (t : MethodType)

theorem parameterTypes_descriptor :
    parameterTypes t.descriptor = t.parameters.flatMap FieldType.text := by
  unfold parameterTypes descriptor
  rw [String.toList_ofList]
  refine takeWhile_ne_paren (fun c hc => ?_) _
  obtain ⟨p, _, hp⟩ := List.mem_flatMap.mp hc
  exact p.paren_not_mem_text c hp

theorem paren_not_mem_resultText : ∀ c ∈ t.resultText, c ≠ ')' := by
  unfold resultText
  cases t.result with
  | none => simp
  | some r => exact r.paren_not_mem_text

theorem resultType_descriptor : resultType t.descriptor = t.resultText := by
  unfold resultType descriptor
  rw [String.toList_ofList, ← List.cons_append, List.reverse_append, List.reverse_cons,
    List.append_assoc, List.singleton_append, takeWhile_ne_paren, List.reverse_reverse]
  exact fun c hc => t.paren_not_mem_resultText c (List.mem_reverse.mp hc)

end MethodType

/-! ## Calls -/

namespace Method

variable {m : Method}

theorem resultWords_of_fieldType {r : FieldType} (h : resultType m.descriptor = r.text) :
    m.resultWords = r.words := by
  unfold resultWords
  rw [h]
  -- only a type of one letter can be taken for `V`, `J` or `D`
  cases r with
  | base b => cases b <;> rfl
  | object name => cases hname : name.chars <;> simp [FieldType.text, FieldType.words, hname]
  | array e => simp [FieldType.text, FieldType.words]

theorem resultWords_of_descriptor {t : MethodType} (h : m.descriptor = t.descriptor) :
    m.resultWords = t.resultWords := by
  have hresult : resultType m.descriptor = t.resultText := by
    rw [h]
    exact t.resultType_descriptor
  unfold MethodType.resultText at hresult
  unfold MethodType.resultWords
  cases hr : t.result with
  | none =>
      rw [hr] at hresult
      unfold resultWords
      rw [hresult]
      rfl
  | some r =>
      rw [hr] at hresult
      exact resultWords_of_fieldType hresult

theorem argumentWords_of_descriptor {t : MethodType} (h : m.descriptor = t.descriptor) :
    m.argumentWords = FieldType.totalWords t.parameters := by
  unfold argumentWords
  rw [h, t.parameterTypes_descriptor]
  exact FieldType.wordsOf_flatMap_text t.parameters

/--
**Descriptors have the word counts of their types**, for the arguments, for the result and
for the depth of the stack, from which a call also takes the receiver.
-/
theorem words_of_descriptor (className name : String) (t : MethodType) :
    let m : Method := ⟨className, name, t.descriptor⟩
    m.argumentWords = FieldType.totalWords t.parameters ∧ m.resultWords = t.resultWords ∧
      (Instr.invokeVirtual m).effect =
        (t.resultWords : Int) - FieldType.totalWords t.parameters - 1 ∧
      (Instr.invokeSpecial m).effect =
        (t.resultWords : Int) - FieldType.totalWords t.parameters - 1 := by
  intro m
  have hargs := argumentWords_of_descriptor (m := m) (t := t) rfl
  have hresult := resultWords_of_descriptor (m := m) (t := t) rfl
  have heffect : m.effect = (t.resultWords : Int) - FieldType.totalWords t.parameters - 1 := by
    rw [effect, hargs, hresult]
  exact ⟨hargs, hresult, heffect, heffect⟩

/-- Letters and brackets in the name of a class, and arrays of wide values, count for nothing. -/
example : (⟨"A", "f", "(J[[DLJ/D[L;[[LI;Z)[J"⟩ : Method).argumentWords = 6 ∧
    (⟨"A", "f", "(J[[DLJ/D[L;[[LI;Z)[J"⟩ : Method).effect = -6 := by
  decide +kernel

end Method

end Dam
