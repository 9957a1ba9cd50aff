import Dam.Generator

/-!
# Code of expressions

An expression has code in two positions. In value position (`Gen.value`) the code
leaves the value on the stack. In condition position (`Gen.test`) it leaves
nothing, goes on when the condition is true and jumps to a label when it is false.

Comparisons and logical operators have their code in condition position; in value
position it is wrapped by `Gen.materialize`, which turns the two outcomes into `1`
and `0`. All other expressions have their code in value position; in condition
position it is followed by a jump.
-/

namespace Dam.Gen

/-! ## Pieces -/

/-- `body` as the code of a node in value position: the type is remembered. -/
def typed (node : Node) (body : Gen ValueType) : Gen ValueType := do
  let type ← body
  record node.id type
  return type

/-- `body` as the code of a node in condition position: the target is remembered, then the type. -/
def routed (node : Node) (target : Label) (body : Gen Unit) : Gen Unit := do
  register node.id target
  body
  record node.id .bool

/-- Jumps to `target` if the value is false. -/
def testValue (line : Nat) (target : Label) (value : Gen ValueType) : Gen Unit := do
  let type ← value
  if type = .bool then emit (.ifZero .eq target) else refuse line (.nonBooleanCondition type)

/-- The value of a condition. -/
def materialize (test : Label → Gen Unit) : Gen ValueType := do
  let group ← newGroup
  let no := Label.numbered "FALSE" group
  let done := Label.numbered "BOOL_END" group
  test no
  emit (.iconst 1)
  emit (.goto done)
  place no
  emit (.iconst 0)
  place done
  return .bool

/-- Pushes a constant. -/
def pushLiteral (line : Nat) : Literal → Gen ValueType
  | .number x => do
    emit (.ldcFloat x)
    return .numeric
  | .string s => do
    emit (.ldcString s)
    return .string
  | .bool b => do
    emit (.iconst (if b then 1 else 0))
    return .bool
  | .null => refuse line .untypedNull

/-- Pushes the value of a variable. -/
def pushVariable (line : Nat) (name : String) : Gen ValueType := do
  let found ← onFrame fun f => (f.table[name]?, f)
  let v ← orRefuse line (.undefinedVariable name) found
  emit (.load v.type v.slot)
  return v.type

/-- Stores a value, and keeps it on the stack if it is used. -/
def assign (keep : Bool) (line : Nat) (name : String) (value : Gen ValueType) : Gen ValueType := do
  let type ← value
  let slot ← orRefuse line (.undefinedVariable name) (← onFrame fun f => f.assign name type)
  if keep then emit .dup
  emit (.store type slot)
  return type

/-- Applies an operator to one value. -/
def applyUnary (op : UnaryOp) (line : Nat) (operand : Gen ValueType) : Gen ValueType := do
  let type ← operand
  match op, type with
  | .not, .bool =>
    emit (.iconst 1)
    emit .ixor
    return .bool
  | .neg, .numeric =>
    emit .fneg
    return .numeric
  | _, _ => refuse line (.invalidOperand op type)

/-- Joins two strings. -/
def concat : Method :=
  ⟨"java/lang/String", "concat", "(Ljava/lang/String;)Ljava/lang/String;"⟩

/-- Compares two strings. -/
def compareTo : Method := ⟨"java/lang/String", "compareTo", "(Ljava/lang/String;)I"⟩

/-- The instruction that applies an operator to two values of a type. -/
def arithInstr? (op : ArithOp) : ValueType → Option Instr
  | .numeric => some (.arith op)
  | .string => if op = .add then some (.invokeVirtual concat) else none
  | .bool => none

/-- Applies an arithmetic operator to two values of the same type. -/
def applyArith (op : ArithOp) (line : Nat) (left right : Gen ValueType) : Gen ValueType := do
  let l ← left
  let r ← right
  match if l = r then arithInstr? op l else none with
  | some i =>
    emit i
    return l
  | none => refuse line (.typeMismatch (.arith op) l r)

/--
The comparison of two floats in front of the branch. It is chosen so that a
comparison with NaN is never true.
-/
def floatCompare : Comparison → Instr
  | .lt | .le => .fcmpg
  | _ => .fcmpl

/-- Jumps to `target` unless the comparison of two values of a type holds. -/
def branchUnless (c : Comparison) (target : Label) : ValueType → Gen Unit
  | .numeric => do
    emit (floatCompare c)
    emit (.ifZero c.negate target)
  | .string => do
    emit (.invokeVirtual compareTo)
    emit (.ifZero c.negate target)
  | .bool => emit (.ifInts c.negate target)

/-- Jumps to `target` unless the comparison of two values holds. -/
def testCompare (c : Comparison) (line : Nat) (left right : Gen ValueType) (target : Label) :
    Gen Unit := do
  let l ← left
  let r ← right
  if l = r then branchUnless c target l else refuse line (.typeMismatch (.compare c) l r)

/-- Jumps to `target` unless both conditions hold. -/
def testBoth (left right : Label → Gen Unit) (target : Label) : Gen Unit := do
  left target
  right target

/-- Jumps to `target` unless one of the conditions holds; if the first does, that is enough. -/
def testEither (left right : Label → Gen Unit) (target : Label) : Gen Unit := do
  let group ← newGroup
  let second := Label.numbered "OR_RHS" group
  let yes := Label.numbered "OR_TRUE" group
  left second
  emit (.goto yes)
  place second
  right target
  place yes

/-- Jumps to `target` unless the logical operator gives true. -/
def testLogical : LogicalOp → (left right : Label → Gen Unit) → Label → Gen Unit
  | .and => testBoth
  | .or => testEither

/-! ## Both positions -/

mutual

/-- The code of an expression in value position. The result is its type. -/
def value : Expr → Gen ValueType
  | .literal n l => typed n (pushLiteral n.line l)
  | .var n x => typed n (pushVariable n.line x)
  | .unary n op a => typed n (applyUnary op a.line (value a))
  | .binary n l (.arith op) r => typed n (applyArith op l.line (value l) (value r))
  | .binary n l (.compare c) r =>
    typed n (materialize fun t => routed n t (testCompare c l.line (value l) (value r) t))
  | .logical n l op r =>
    typed n (materialize fun t => routed n t (testLogical op (test l) (test r) t))
  | .grouping n a => typed n (value a)
  | .assign n x a => typed n (assign true n.line x (value a))

/-- The code of an expression in condition position. -/
def test : Expr → Label → Gen Unit
  | .literal n l, t => routed n t (testValue n.line t (typed n (pushLiteral n.line l)))
  | .var n x, t => routed n t (testValue n.line t (typed n (pushVariable n.line x)))
  | .unary n op a, t =>
    routed n t (testValue n.line t (typed n (applyUnary op a.line (value a))))
  | .binary n l (.arith op) r, t =>
    routed n t (testValue n.line t (typed n (applyArith op l.line (value l) (value r))))
  | .binary n l (.compare c) r, t =>
    routed n t (testCompare c l.line (value l) (value r) t)
  | .logical n l op r, t => routed n t (testLogical op (test l) (test r) t)
  | .grouping n a, t => routed n t (test a t)
  | .assign n x a, t =>
    routed n t (testValue n.line t (typed n (assign true n.line x (value a))))

end

end Dam.Gen
