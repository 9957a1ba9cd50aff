import Dam.Proofs.Shapes

/-!
# The grammar

What a program is, said without a parser: the phrases of the language as relations
between the kinds of tokens and trees. Binary operators stand in six levels, one
relation for all of them with the level as an index; an operand of an operator is a
phrase of the next level on its right and of the same level on its left, so that
operators group to the left and tighter ones first.

Trees in the grammar have the shape of a tree and nothing else: no places and no
numbers. An `else` belongs to the nearest `if` that can have it, which is a condition
on the statement in front of it (`Stmt.endsOpen`).
-/

namespace Dam

/-- Whether an `else` behind the statement would belong to an `if` in it. -/
def Stmt.endsOpen : Stmt → Bool
  | ifThen .. => true
  | ifElse _ _ _ no => no.endsOpen
  | whileDo _ _ body => body.endsOpen
  | _ => false

@[simp] theorem Stmt.endsOpen_bare (ids : Nat → Nat) :
    ∀ st : Stmt, (st.bare ids).endsOpen = st.endsOpen
  | ifThen .. => rfl
  | ifElse _ _ _ no => no.endsOpen_bare ids
  | whileDo _ _ body => body.endsOpen_bare ids
  | declare .. | print .. | read .. | block .. | expression .. => rfl

theorem Operator.level_le (op : Operator) : op.level ≤ 6 := by
  rcases op with op | op | op <;> cases op <;> decide

theorem Operator.join_ne_var (op : Operator) (node node' : Node) (left right : Expr) (x : String) :
    op.join node left right ≠ .var node' x := by
  cases op <;> exact fun h => nomatch h

namespace Grammar

/-! ## Words -/

/-- The token stands for a constant. -/
inductive Denotes : TokenKind → Literal → Prop
  | number (x : Binary64) : Denotes (.number x) (.number x)
  | string (s : String) : Denotes (.string s) (.string s)
  | yes : Denotes (.word .trueWord) (.bool true)
  | no : Denotes (.word .falseWord) (.bool false)
  | null : Denotes (.word .nullWord) .null

/-- The token stands for an operator in front of its operand. -/
inductive Changes : TokenKind → UnaryOp → Prop
  | not : Changes (.mark .bang) .not
  | neg : Changes (.mark .minus) .neg

/-- The token stands for an operator of a level between its operands; level 1 is the loosest. -/
inductive Joins : Nat → TokenKind → Operator → Prop
  | or : Joins 1 (.word .orWord) (.logical .or)
  | and : Joins 2 (.word .andWord) (.logical .and)
  | eq : Joins 3 (.mark .equalEqual) (.binary (.compare .eq))
  | ne : Joins 3 (.mark .bangEqual) (.binary (.compare .ne))
  | gt : Joins 4 (.mark .greater) (.binary (.compare .gt))
  | ge : Joins 4 (.mark .greaterEqual) (.binary (.compare .ge))
  | lt : Joins 4 (.mark .less) (.binary (.compare .lt))
  | le : Joins 4 (.mark .lessEqual) (.binary (.compare .le))
  | add : Joins 5 (.mark .plus) (.binary (.arith .add))
  | sub : Joins 5 (.mark .minus) (.binary (.arith .sub))
  | mul : Joins 6 (.mark .star) (.binary (.arith .mul))
  | div : Joins 6 (.mark .slash) (.binary (.arith .div))

/-! ## Expressions -/

mutual

/-- An assignment, or a phrase of the operators. -/
inductive Expression : List TokenKind → Expr → Prop
  | assign {x : String} {ks : List TokenKind} {e : Expr} (value : Expression ks e) :
      Expression (.name x :: .mark .equal :: ks) (.assign .blank x e)
  | level {ks : List TokenKind} {e : Expr} (phrase : Level 1 ks e) : Expression ks e

/-- A phrase of the operators of level `n` and tighter ones. There are six levels. -/
inductive Level : Nat → List TokenKind → Expr → Prop
  | join {n : Nat} {k : TokenKind} {op : Operator} {ks ks' : List TokenKind} {l r : Expr}
      (left : Level n ks l) (operator : Joins n k op) (right : Level (n + 1) ks' r) :
      Level n (ks ++ k :: ks') (op.join .blank l r)
  | tighter {n : Nat} {ks : List TokenKind} {e : Expr} (phrase : Level (n + 1) ks e) : Level n ks e
  | operand {ks : List TokenKind} {e : Expr} (phrase : Unary ks e) : Level 7 ks e

/-- An operand with the operators in front of it. -/
inductive Unary : List TokenKind → Expr → Prop
  | operator {k : TokenKind} {op : UnaryOp} {ks : List TokenKind} {e : Expr}
      (operator : Changes k op) (operand : Unary ks e) : Unary (k :: ks) (.unary .blank op e)
  | primary {ks : List TokenKind} {e : Expr} (phrase : Primary ks e) : Unary ks e

/-- A constant, a variable, or an expression in parentheses. -/
inductive Primary : List TokenKind → Expr → Prop
  | literal {k : TokenKind} {l : Literal} (constant : Denotes k l) :
      Primary [k] (.literal .blank l)
  | name {x : String} : Primary [.name x] (.var .blank x)
  | grouping {ks : List TokenKind} {e : Expr} (inner : Expression ks e) :
      Primary (.mark .leftParen :: ks ++ [.mark .rightParen]) (.grouping .blank e)

end

/-! ## Statements -/

mutual

/-- A declaration or a statement. A variable that is declared without a value is the empty
string. -/
inductive Declaration : List TokenKind → Stmt → Prop
  | initialized {x : String} {ks : List TokenKind} {e : Expr} (value : Expression ks e) :
      Declaration (.word .letWord :: .name x :: .mark .equal :: ks ++ [.mark .semicolon])
        (.declare .synthetic x e)
  | empty {x : String} :
      Declaration [.word .letWord, .name x, .mark .semicolon]
        (.declare .synthetic x (.literal .blank (.string "")))
  | statement {ks : List TokenKind} {st : Stmt} (phrase : Statement ks st) : Declaration ks st

/-- A statement, which may be a branch or a loop body. -/
inductive Statement : List TokenKind → Stmt → Prop
  | print {ks : List TokenKind} {e : Expr} (value : Expression ks e) :
      Statement (.word .printWord :: ks ++ [.mark .semicolon]) (.print .synthetic e)
  | read {x : String} :
      Statement [.word .readWord, .name x, .mark .semicolon] (.read .synthetic x)
  | ifThen {ks ks' : List TokenKind} {e : Expr} {yes : Stmt} (condition : Expression ks e)
      (branch : Statement ks' yes) :
      Statement (.word .ifWord :: .mark .leftParen :: ks ++ .mark .rightParen :: ks')
        (.ifThen .synthetic e yes)
  | ifElse {ks ks' ks'' : List TokenKind} {e : Expr} {yes no : Stmt} (condition : Expression ks e)
      (first : Statement ks' yes) (nearest : yes.endsOpen = false) (second : Statement ks'' no) :
      Statement
        (.word .ifWord :: .mark .leftParen :: ks ++ .mark .rightParen :: ks' ++
          .word .elseWord :: ks'')
        (.ifElse .synthetic e yes no)
  | whileDo {ks ks' : List TokenKind} {e : Expr} {body : Stmt} (condition : Expression ks e)
      (loop : Statement ks' body) :
      Statement (.word .whileWord :: .mark .leftParen :: ks ++ .mark .rightParen :: ks')
        (.whileDo .synthetic e body)
  | block {ks : List TokenKind} {ss : List Stmt} (inner : Declarations ks ss) :
      Statement (.mark .leftBrace :: ks ++ [.mark .rightBrace]) (.block .synthetic ss)
  | expression {ks : List TokenKind} {e : Expr} (value : Expression ks e) :
      Statement (ks ++ [.mark .semicolon]) (.expression .synthetic e)

/-- Declarations one after the other. -/
inductive Declarations : List TokenKind → List Stmt → Prop
  | nil : Declarations [] []
  | cons {ks ks' : List TokenKind} {st : Stmt} {ss : List Stmt} (first : Declaration ks st)
      (others : Declarations ks' ss) : Declarations (ks ++ ks') (st :: ss)

end

/-- The tokens derive the program. -/
inductive Derives : List TokenKind → Program → Prop
  | program {ks : List TokenKind} {ss : List Stmt} (stmts : Declarations ks ss) :
      Derives ks ⟨ss, .synthetic⟩

/-! ## Words and the tables of the parser -/

theorem denotes_iff {k : TokenKind} {l : Literal} : Denotes k l ↔ Literal.ofToken? k = some l := by
  constructor
  · intro h
    cases h <;> rfl
  · intro h
    unfold Literal.ofToken? at h
    split at h <;> cases h <;> constructor

theorem changes_iff {k : TokenKind} {op : UnaryOp} :
    Changes k op ↔ UnaryOp.ofToken? k = some op := by
  constructor
  · intro h
    cases h <;> rfl
  · intro h
    unfold UnaryOp.ofToken? at h
    split at h <;> cases h <;> constructor

theorem joins_iff {n : Nat} {k : TokenKind} {op : Operator} :
    Joins n k op ↔ Operator.ofToken? k = some op ∧ op.level = n := by
  constructor
  · intro h
    cases h <;> exact ⟨rfl, rfl⟩
  · rintro ⟨h, rfl⟩
    unfold Operator.ofToken? at h
    split at h <;> cases h <;> constructor

/-! ## Phrases -/

theorem Level.loosen {n m : Nat} {ks : List TokenKind} {e : Expr} (h : Level m ks e)
    (hn : n ≤ m) : Level n ks e := by
  induction hn with
  | refl => exact h
  | step _ ih => exact ih h.tighter

theorem Unary.eq_of_var {x : String} {ks : List TokenKind} {e : Expr} (h : Unary ks e)
    (he : e = .var .blank x) : ks = [.name x] := by
  cases h with
  | operator => cases he
  | primary h =>
      cases h with
      | literal => cases he
      | name =>
          cases he
          rfl
      | grouping => cases he

/-- A name alone is the only phrase for a variable. -/
theorem Level.eq_of_var {x : String} : ∀ {n : Nat} {ks : List TokenKind} {e : Expr},
    Level n ks e → e = .var .blank x → ks = [.name x]
  | _, _, _, .join _ _ _, he => (Operator.join_ne_var _ _ _ _ _ _ he).elim
  | _, _, _, .tighter h, he => h.eq_of_var he
  | _, _, _, .operand h, he => h.eq_of_var he

end Grammar

end Dam
