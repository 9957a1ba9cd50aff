import Dam.Json.Number
import Dam.Json.Reader
import Dam.Number.Decimal
import Dam.Program

/-!
# Programs as JSON

A program tree is written as JSON and read back. A record becomes an object with its
fields in a fixed order; a case of a choice becomes an object with the name of the
case as its only member, or just the name if the case holds nothing.

Reading is more lenient than writing. Members that are not known are passed over, a
record may also be an array of its fields, and a missing `else_branch` is the same as
`null`. A known member that occurs twice, or a value of the wrong kind, is refused.
How deep brackets may be nested is up to whoever reads: each function takes the number of
brackets, `depth`, that may still be opened.
-/

namespace Dam

/-! ## Writing -/

/-- A case of a choice. -/
def Json.variant (name : String) (body : Json) : Json := .object [(name, body)]

/-- A span as an object. -/
def Span.toJson (s : Span) : Json :=
  .object [("start", .ofNat s.start), ("end", .ofNat s.stop), ("line", .ofNat s.line),
    ("col", .ofNat s.col)]

/-- A number; one that is not finite cannot be written. -/
def Binary64.toJson (x : Binary64) : Json := if x.isFinite then .number x.json else .null

/-- A literal as a case. -/
def Literal.toJson : Literal → Json
  | .number x => .variant "Number" x.toJson
  | .string s => .variant "Str" (.string s)
  | .bool b => .variant "Bool" (.bool b)
  | .null => .string "Null"

/-- The name of the case of an operator. -/
def UnaryOp.caseName : UnaryOp → String
  | .not => "Not"
  | .neg => "Neg"

/-- The name of the case of an operator. -/
def LogicalOp.caseName : LogicalOp → String
  | .and => "And"
  | .or => "Or"

/-- The name of the case of an operator. -/
def BinaryOp.caseName : BinaryOp → String
  | .arith .add => "Add"
  | .arith .sub => "Sub"
  | .arith .mul => "Mul"
  | .arith .div => "Div"
  | .compare .eq => "Eq"
  | .compare .ne => "NotEq"
  | .compare .gt => "Gt"
  | .compare .ge => "GtEq"
  | .compare .lt => "Lt"
  | .compare .le => "LtEq"

/-- The record of a node with what is particular to it. -/
def Node.toJson (n : Node) (kind : Json) : Json :=
  .object [("id", .ofNat n.id), ("kind", kind), ("span", n.span.toJson)]

/-- An expression as a record. -/
def Expr.toJson : Expr → Json
  | .literal n l => n.toJson (.variant "Literal" l.toJson)
  | .var n x => n.toJson (.variant "Variable" (.string x))
  | .unary n op a => n.toJson (.variant "Unary" (.array [.string op.caseName, a.toJson]))
  | .binary n a op b =>
    n.toJson (.variant "Binary" (.array [a.toJson, .string op.caseName, b.toJson]))
  | .logical n a op b =>
    n.toJson (.variant "Logical" (.array [a.toJson, .string op.caseName, b.toJson]))
  | .grouping n a => n.toJson (.variant "Grouping" a.toJson)
  | .assign n x a => n.toJson (.variant "Assign" (.array [.string x, a.toJson]))

mutual

/-- A statement as a case that holds a record. -/
def Stmt.toJson : Stmt → Json
  | .declare span x e =>
    .variant "Let" (.object [("name", .string x), ("initializer", e.toJson), ("span", span.toJson)])
  | .print span e => .variant "Print" (.object [("value", e.toJson), ("span", span.toJson)])
  | .read span x => .variant "Read" (.object [("name", .string x), ("span", span.toJson)])
  | .ifThen span e yes =>
    .variant "If" (.object [("condition", e.toJson), ("then_branch", yes.toJson),
      ("else_branch", .null), ("span", span.toJson)])
  | .ifElse span e yes no =>
    .variant "If" (.object [("condition", e.toJson), ("then_branch", yes.toJson),
      ("else_branch", no.toJson), ("span", span.toJson)])
  | .whileDo span e body =>
    .variant "While" (.object [("condition", e.toJson), ("body", body.toJson),
      ("span", span.toJson)])
  | .block span ss =>
    .variant "Block" (.object [("stmts", .array (Stmt.listToJson [] ss)), ("span", span.toJson)])
  | .expression span e =>
    .variant "Expression" (.object [("expr", e.toJson), ("span", span.toJson)])

/-- Statements in order, behind those in `done`, which are backwards. -/
def Stmt.listToJson (done : List Json) : List Stmt → List Json
  | [] => done.reverse
  | s :: ss => Stmt.listToJson (s.toJson :: done) ss

end

/-- A program as a record. -/
def Program.toJson (p : Program) : Json :=
  .object [("stmts", .array (Stmt.listToJson [] p.stmts)), ("span", p.span.toJson)]

/-! ## Reading -/

namespace Json

/-- The fields of a record: all of an array, or the members of an object, which may be missing. -/
def members? (names : List String) : Json → Option (List (Option Json))
  | .array items => if items.length = names.length then some (items.map some) else none
  | .object members =>
    names.mapM fun name =>
      match members.filter fun m => m.1 == name with
      | [] => some none
      | [(_, v)] => some (some v)
      | _ => none
  | _ => none

/-- The fields of a record, none of which may be missing. -/
def fields? (names : List String) (j : Json) : Option (List Json) := do
  (← members? names j).mapM id

/-- The name of a case that holds nothing. -/
def caseName? (depth : Nat) : Json → Option String
  | .string s => some s
  | .object [(s, .null)] => if 0 < depth then some s else none
  | _ => none

end Json

/-- Reads a span. -/
def Span.ofJson? (depth : Nat) (j : Json) : Option Span :=
  if depth = 0 then none
  else
    match j.fields? ["start", "end", "line", "col"] with
    | some [start, stop, line, col] => do
      some ⟨← start.nat? (twoTo 64), ← stop.nat? (twoTo 64), ← line.nat? (twoTo 32),
        ← col.nat? (twoTo 32)⟩
    | _ => none

/-- Reads a literal. -/
def Literal.ofJson? (depth : Nat) (j : Json) : Option Literal :=
  match j with
  | .object [(name, body)] =>
    if depth = 0 then none
    else
      match name, body with
      | "Number", x => x.binary64?.map .number
      | "Str", .string s => some (.string s)
      | "Bool", .bool b => some (.bool b)
      | "Null", .null => some .null
      | _, _ => none
  | .string "Null" => some .null
  | _ => none

/-- Reads an operator. -/
def UnaryOp.ofJson? (depth : Nat) (j : Json) : Option UnaryOp := do
  let name ← j.caseName? depth
  [UnaryOp.not, .neg].find? fun op => op.caseName == name

/-- Reads an operator. -/
def LogicalOp.ofJson? (depth : Nat) (j : Json) : Option LogicalOp := do
  let name ← j.caseName? depth
  [LogicalOp.and, .or].find? fun op => op.caseName == name

/-- Reads an operator. -/
def BinaryOp.ofJson? (depth : Nat) (j : Json) : Option BinaryOp := do
  let name ← j.caseName? depth
  BinaryOp.all.find? fun op => op.caseName == name

mutual

/-- Reads an expression. -/
def Expr.ofJson? : (depth : Nat) → Json → Option Expr
  | 0, _ => none
  | depth + 1, j =>
    match j.fields? ["id", "kind", "span"] with
    | some [id, kind, span] => do
      let node := Node.mk (← id.nat? (twoTo 32)) (← Span.ofJson? depth span)
      Expr.ofKind? depth node kind
    | _ => none

/-- Reads what is particular to an expression. -/
def Expr.ofKind? : (depth : Nat) → Node → Json → Option Expr
  | depth + 1, node, .object [("Literal", l)] => (Literal.ofJson? depth l).map (.literal node)
  | _ + 1, node, .object [("Variable", .string x)] => some (.var node x)
  | depth + 2, node, .object [("Unary", .array [op, a])] => do
    some (.unary node (← UnaryOp.ofJson? depth op) (← Expr.ofJson? depth a))
  | depth + 2, node, .object [("Binary", .array [a, op, b])] => do
    some (.binary node (← Expr.ofJson? depth a) (← BinaryOp.ofJson? depth op)
      (← Expr.ofJson? depth b))
  | depth + 2, node, .object [("Logical", .array [a, op, b])] => do
    some (.logical node (← Expr.ofJson? depth a) (← LogicalOp.ofJson? depth op)
      (← Expr.ofJson? depth b))
  | depth + 1, node, .object [("Grouping", a)] => (Expr.ofJson? depth a).map (.grouping node)
  | depth + 2, node, .object [("Assign", .array [.string x, a])] =>
    (Expr.ofJson? depth a).map (.assign node x)
  | _, _, _ => none

end

mutual

/-- Reads a statement. -/
def Stmt.ofJson? : (depth : Nat) → Json → Option Stmt
  | depth + 2, .object [("Let", body)] =>
    match body.fields? ["name", "initializer", "span"] with
    | some [.string x, e, span] => do
      some (.declare (← Span.ofJson? depth span) x (← Expr.ofJson? depth e))
    | _ => none
  | depth + 2, .object [("Print", body)] =>
    match body.fields? ["value", "span"] with
    | some [e, span] => do some (.print (← Span.ofJson? depth span) (← Expr.ofJson? depth e))
    | _ => none
  | depth + 2, .object [("Read", body)] =>
    match body.fields? ["name", "span"] with
    | some [.string x, span] => do some (.read (← Span.ofJson? depth span) x)
    | _ => none
  | depth + 2, .object [("If", body)] =>
    match body.members? ["condition", "then_branch", "else_branch", "span"] with
    | some [some e, some yes, no, some span] => do
      let span ← Span.ofJson? depth span
      let e ← Expr.ofJson? depth e
      let yes ← Stmt.ofJson? depth yes
      match no with
      | none | some .null => some (.ifThen span e yes)
      | some no => do some (.ifElse span e yes (← Stmt.ofJson? depth no))
    | _ => none
  | depth + 2, .object [("While", body)] =>
    match body.fields? ["condition", "body", "span"] with
    | some [e, body, span] => do
      some (.whileDo (← Span.ofJson? depth span) (← Expr.ofJson? depth e)
        (← Stmt.ofJson? depth body))
    | _ => none
  | depth + 2, .object [("Block", body)] =>
    match body.fields? ["stmts", "span"] with
    | some [ss, span] => do
      some (.block (← Span.ofJson? depth span) (← Stmt.listOfJson? depth ss))
    | _ => none
  | depth + 2, .object [("Expression", body)] =>
    match body.fields? ["expr", "span"] with
    | some [e, span] => do some (.expression (← Span.ofJson? depth span) (← Expr.ofJson? depth e))
    | _ => none
  | _, _ => none

/-- Reads statements. -/
def Stmt.listOfJson? : (depth : Nat) → Json → Option (List Stmt)
  | depth + 1, .array items => items.mapM (Stmt.ofJson? depth)
  | _, _ => none

end

/-- Reads a program. -/
def Program.ofJson? : (depth : Nat) → Json → Option Program
  | 0, _ => none
  | depth + 1, j =>
    match j.fields? ["stmts", "span"] with
    | some [ss, span] => do
      some ⟨← Stmt.listOfJson? depth ss, ← Span.ofJson? depth span⟩
    | _ => none

/-- Reads a program from a JSON text. -/
def Program.parseJson? (depth : Nat) (text : String) : Option Program :=
  Json.parse? text >>= Program.ofJson? depth

end Dam
