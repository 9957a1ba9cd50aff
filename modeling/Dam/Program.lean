import Dam.Number.Binary64
import Dam.Span

/-!
# Programs

The tree of a program. An expression node has an id, unique within one parse,
under which its type and its branch target are remembered; two equal expressions
at different places are different nodes.
-/

namespace Dam

/-- How two values are compared. -/
inductive Comparison where
  | eq | ne | lt | ge | gt | le
deriving DecidableEq, Repr, Inhabited

namespace Comparison

/-- The comparison that holds exactly when this one does not. -/
def negate : Comparison → Comparison
  | .eq => .ne
  | .ne => .eq
  | .lt => .ge
  | .ge => .lt
  | .gt => .le
  | .le => .gt

@[simp] theorem negate_negate (c : Comparison) : c.negate.negate = c := by
  cases c <;> rfl

/-- The operator as it is written in a program. -/
def symbol : Comparison → String
  | .eq => "=="
  | .ne => "!="
  | .lt => "<"
  | .ge => ">="
  | .gt => ">"
  | .le => "<="

end Comparison

/-- The arithmetic operators; `+` also joins strings. -/
inductive ArithOp where
  | add | sub | mul | div
deriving DecidableEq, Repr, Inhabited

/-- The operator as it is written in a program. -/
def ArithOp.symbol : ArithOp → String
  | .add => "+"
  | .sub => "-"
  | .mul => "*"
  | .div => "/"

/-- An operator that needs the values of both its operands. -/
inductive BinaryOp where
  | arith (op : ArithOp)
  | compare (op : Comparison)
deriving DecidableEq, Repr, Inhabited

/-- The operator as it is written in a program. -/
def BinaryOp.symbol : BinaryOp → String
  | .arith op => op.symbol
  | .compare op => op.symbol

/-- Every operator with two values, arithmetic first. -/
def BinaryOp.all : List BinaryOp :=
  [.arith .add, .arith .sub, .arith .mul, .arith .div, .compare .eq, .compare .ne,
    .compare .gt, .compare .ge, .compare .lt, .compare .le]

/-- An operator that may leave its right operand unevaluated. -/
inductive LogicalOp where
  | and | or
deriving DecidableEq, Repr, Inhabited

/-- The operator as it is written in a program. -/
def LogicalOp.symbol : LogicalOp → String
  | .and => "and"
  | .or => "or"

/-- An operator in front of its operand. -/
inductive UnaryOp where
  | not | neg
deriving DecidableEq, Repr, Inhabited

/-- The operator as it is written in a program. -/
def UnaryOp.symbol : UnaryOp → String
  | .not => "!"
  | .neg => "-"

/-- A constant. -/
inductive Literal where
  | number (value : Binary64)
  | string (value : String)
  | bool (value : Bool)
  | null
deriving DecidableEq, Repr, Inhabited

/-- What every expression node carries: its id and its place. -/
structure Node where
  id : Nat
  span : Span
deriving DecidableEq, Repr, Inhabited

/-- The line a node begins in. -/
def Node.line (n : Node) : Nat := n.span.line

/-- An expression. Parentheses are kept as `grouping`. -/
inductive Expr where
  | literal (node : Node) (value : Literal)
  | var (node : Node) (name : String)
  | unary (node : Node) (op : UnaryOp) (operand : Expr)
  | binary (node : Node) (left : Expr) (op : BinaryOp) (right : Expr)
  | logical (node : Node) (left : Expr) (op : LogicalOp) (right : Expr)
  | grouping (node : Node) (inner : Expr)
  | assign (node : Node) (name : String) (value : Expr)
deriving DecidableEq, Repr, Inhabited

namespace Expr

/-- The id and place of an expression. -/
def node : Expr → Node
  | literal n _ | var n _ | unary n _ _ | binary n _ _ _ | logical n _ _ _ | grouping n _
  | assign n _ _ => n

/-- The id of an expression. -/
def id (e : Expr) : Nat := e.node.id

/-- The place of an expression. -/
def span (e : Expr) : Span := e.node.span

/-- The line an expression begins in. -/
def line (e : Expr) : Nat := e.node.line

end Expr

/-- A statement. -/
inductive Stmt where
  | declare (span : Span) (name : String) (value : Expr)
  | print (span : Span) (value : Expr)
  | read (span : Span) (name : String)
  | ifThen (span : Span) (condition : Expr) (yes : Stmt)
  | ifElse (span : Span) (condition : Expr) (yes no : Stmt)
  | whileDo (span : Span) (condition : Expr) (body : Stmt)
  | block (span : Span) (stmts : List Stmt)
  | expression (span : Span) (value : Expr)
deriving Repr, Inhabited

namespace Stmt

/-- The place of a statement. -/
def span : Stmt → Span
  | declare s _ _ | print s _ | read s _ | ifThen s _ _ | ifElse s _ _ _ | whileDo s _ _
  | block s _ | expression s _ => s

/-- The line a statement begins in. -/
def line (s : Stmt) : Nat := s.span.line

end Stmt

/-- A whole program. -/
structure Program where
  stmts : List Stmt
  span : Span
deriving Repr, Inhabited

end Dam
