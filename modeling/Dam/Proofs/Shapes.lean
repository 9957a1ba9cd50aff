import Dam.Program.Parser

/-!
# Trees without places

Two trees can be the same program and yet differ, in the places their nodes come from
and in the numbers their nodes were given. `bare` takes the places away and changes the
numbers by a function, so that such trees become equal: `unplaced` keeps the numbers,
and `shape` forgets them too.
-/

namespace Dam

@[simp] theorem Span.line_synthetic : Span.synthetic.line = 0 := rfl

@[simp] theorem Span.merge_synthetic : Span.synthetic.merge .synthetic = .synthetic := rfl

/-- The node without its place, and with another id. -/
def Node.bare (ids : Nat → Nat) (n : Node) : Node := ⟨ids n.id, .synthetic⟩

@[simp] theorem Node.span_bare (ids : Nat → Nat) (n : Node) :
    (n.bare ids).span = .synthetic := rfl

@[simp] theorem Node.line_bare (ids : Nat → Nat) (n : Node) : (n.bare ids).line = 0 := rfl

/-- The expression without places, and with other ids. -/
def Expr.bare (ids : Nat → Nat) : Expr → Expr
  | literal n v => literal (n.bare ids) v
  | var n x => var (n.bare ids) x
  | unary n op a => unary (n.bare ids) op (a.bare ids)
  | binary n l op r => binary (n.bare ids) (l.bare ids) op (r.bare ids)
  | logical n l op r => logical (n.bare ids) (l.bare ids) op (r.bare ids)
  | grouping n a => grouping (n.bare ids) (a.bare ids)
  | assign n x a => assign (n.bare ids) x (a.bare ids)

namespace Stmt

mutual

/-- The statement without places, and with other ids. -/
def bare (ids : Nat → Nat) : Stmt → Stmt
  | declare _ x e => declare .synthetic x (e.bare ids)
  | print _ e => print .synthetic (e.bare ids)
  | read _ x => read .synthetic x
  | ifThen _ e yes => ifThen .synthetic (e.bare ids) (yes.bare ids)
  | ifElse _ e yes no => ifElse .synthetic (e.bare ids) (yes.bare ids) (no.bare ids)
  | whileDo _ e body => whileDo .synthetic (e.bare ids) (body.bare ids)
  | block _ ss => block .synthetic (bareAll ids ss)
  | expression _ e => expression .synthetic (e.bare ids)

/-- Statements without places, and with other ids. -/
def bareAll (ids : Nat → Nat) : List Stmt → List Stmt
  | [] => []
  | s :: ss => s.bare ids :: bareAll ids ss

end

@[simp] theorem bareAll_eq_map (ids : Nat → Nat) (ss : List Stmt) :
    bareAll ids ss = ss.map (bare ids) := by
  induction ss with
  | nil => rfl
  | cons s ss ih => rw [bareAll, ih, List.map_cons]

end Stmt

/-- The program without places, and with other ids. -/
def Program.bare (ids : Nat → Nat) (p : Program) : Program :=
  ⟨p.stmts.map (Stmt.bare ids), .synthetic⟩

@[simp] theorem Expr.node_bare (ids : Nat → Nat) (e : Expr) :
    (e.bare ids).node = e.node.bare ids := by
  cases e <;> rfl

@[simp] theorem Expr.span_bare (ids : Nat → Nat) (e : Expr) :
    (e.bare ids).span = .synthetic := by
  rw [span, node_bare]
  rfl

@[simp] theorem Expr.line_bare (ids : Nat → Nat) (e : Expr) : (e.bare ids).line = 0 := by
  rw [line, node_bare]
  rfl

@[simp] theorem Operator.bare_join (ids : Nat → Nat) (op : Operator) (node : Node)
    (left right : Expr) :
    (op.join node left right).bare ids =
      op.join (node.bare ids) (left.bare ids) (right.bare ids) := by
  cases op <;> rfl

/-! ## With numbers and without -/

/-- The expression without places. -/
abbrev Expr.unplaced (e : Expr) : Expr := e.bare fun i => i

/-- The statement without places. -/
abbrev Stmt.unplaced (st : Stmt) : Stmt := st.bare fun i => i

/-- The program without places. -/
abbrev Program.unplaced (p : Program) : Program := p.bare fun i => i

/-- The node of all expressions that have no places and no numbers. -/
def Node.blank : Node := ⟨0, .synthetic⟩

@[simp] theorem Node.bare_zero (n : Node) : (n.bare fun _ => 0) = .blank := rfl

/-- The expression without places and numbers. -/
abbrev Expr.shape (e : Expr) : Expr := e.bare fun _ => 0

/-- The statement without places and numbers. -/
abbrev Stmt.shape (st : Stmt) : Stmt := st.bare fun _ => 0

/-- The program without places and numbers. -/
abbrev Program.shape (p : Program) : Program := p.bare fun _ => 0

end Dam
