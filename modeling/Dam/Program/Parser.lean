import Dam.Program
import Dam.Token

/-!
# From tokens to programs

A recursive descent parser, with one function per nonterminal and a loop over
operator levels. It reads the tokens up to the first `endOfInput`; that token is
never consumed, and what stands after it is never seen.

A syntax fault ends the declaration it occurs in. The parser notes it, skips to
the next statement (`State.recover`) and goes on, so one run reports every fault.

The measure of all recursion is `State.left`, the number of tokens that are still
to be read; what is added to its multiples ranks the nonterminals that call each
other before a token is read. An `Outcome n` carries the proof that a success has
read at least one of `n` tokens and that a failure has put none back.
-/

namespace Dam

/-- Why the tokens do not form a program. -/
inductive ParseFault where
  | expectedMark (wanted : Mark) (found : TokenKind)
  | expectedName (found : TokenKind)
  | expectedExpression (found : TokenKind)
  | declarationAsBranch
  | reserved (word : Keyword)
  | invalidTarget
deriving DecidableEq, Repr

/-- The wording of a syntax fault. -/
def ParseFault.message : ParseFault → String
  | .expectedMark wanted found => "expected '" ++ wanted.text ++ "', found '" ++ found.text ++ "'"
  | .expectedName found => "expected variable name, found '" ++ found.text ++ "'"
  | .expectedExpression found => "expected expression, found '" ++ found.text ++ "'"
  | .declarationAsBranch => "'let' is only allowed at statement level, not as a branch body"
  | .reserved word => "'" ++ word.text ++ "' is a reserved keyword"
  | .invalidTarget => "invalid assignment target"

/-- A syntax fault and the token it concerns. -/
structure ParseError where
  fault : ParseFault
  span : Span
deriving DecidableEq, Repr

/-- The fault with its place. -/
def ParseError.message (e : ParseError) : String :=
  "parse error at " ++ e.span.place ++ ": " ++ e.fault.message

/-! ## Operators by level -/

/-- An operator between two operands. -/
inductive Operator where
  | logical (op : LogicalOp)
  | binary (op : BinaryOp)
deriving DecidableEq, Repr

namespace Operator

/-- How tightly an operator binds; all operators of one level group to the left. -/
def level : Operator → Nat
  | .logical .or => 1
  | .logical .and => 2
  | .binary (.compare .eq) | .binary (.compare .ne) => 3
  | .binary (.compare _) => 4
  | .binary (.arith .add) | .binary (.arith .sub) => 5
  | .binary (.arith .mul) | .binary (.arith .div) => 6

/-- The operator a token stands for between two operands. -/
def ofToken? : TokenKind → Option Operator
  | .word .orWord => some (.logical .or)
  | .word .andWord => some (.logical .and)
  | .mark .equalEqual => some (.binary (.compare .eq))
  | .mark .bangEqual => some (.binary (.compare .ne))
  | .mark .greater => some (.binary (.compare .gt))
  | .mark .greaterEqual => some (.binary (.compare .ge))
  | .mark .less => some (.binary (.compare .lt))
  | .mark .lessEqual => some (.binary (.compare .le))
  | .mark .plus => some (.binary (.arith .add))
  | .mark .minus => some (.binary (.arith .sub))
  | .mark .star => some (.binary (.arith .mul))
  | .mark .slash => some (.binary (.arith .div))
  | _ => none

theorem isEnd_of_ofToken? {k : TokenKind} {op : Operator} (h : ofToken? k = some op) :
    k.isEnd = false := by
  cases k <;> simp_all [TokenKind.isEnd, ofToken?]

/-- The node that joins two operands. -/
def join (node : Node) (left : Expr) : Operator → Expr → Expr
  | .logical op, right => .logical node left op right
  | .binary op, right => .binary node left op right

end Operator

/-- The operator a token stands for in front of an operand. -/
def UnaryOp.ofToken? : TokenKind → Option UnaryOp
  | .mark .bang => some .not
  | .mark .minus => some .neg
  | _ => none

theorem UnaryOp.isEnd_of_ofToken? {k : TokenKind} {op : UnaryOp} (h : ofToken? k = some op) :
    k.isEnd = false := by
  cases k <;> simp_all [TokenKind.isEnd, ofToken?]

/-- The literal a token stands for. -/
def Literal.ofToken? : TokenKind → Option Literal
  | .word .falseWord => some (.bool false)
  | .word .trueWord => some (.bool true)
  | .word .nullWord => some .null
  | .number x => some (.number x)
  | .string s => some (.string s)
  | _ => none

theorem Literal.isEnd_of_ofToken? {k : TokenKind} {l : Literal} (h : ofToken? k = some l) :
    k.isEnd = false := by
  cases k <;> simp_all [TokenKind.isEnd, ofToken?]

namespace Parser

/-! ## State -/

/-- The tokens to be read, the last one read, the next free id and the faults noted so far. -/
structure State where
  rest : List Token
  last : Option Token
  nextId : Nat
  faults : Array ParseError
deriving Repr

namespace State

/-- The state before the first token. -/
def start (tokens : List Token) : State := ⟨tokens, none, 0, #[]⟩

/-- The kind of the current token; the end of the list is an end of input. -/
def peek (s : State) : TokenKind :=
  match s.rest with
  | [] => .endOfInput
  | t :: _ => t.kind

/-- The place of the current token, synthetic at the end of the list. -/
def here (s : State) : Span :=
  match s.rest with
  | [] => .synthetic
  | t :: _ => t.span

/-- The place of the last token read, synthetic before the first. -/
def behind (s : State) : Span :=
  match s.last with
  | none => .synthetic
  | some t => t.span

/-- The number of tokens before the end of input. -/
def left (s : State) : Nat := (s.rest.takeWhile fun t => !t.kind.isEnd).length

/-- Reads the current token, unless it is the end of input. -/
def advance (s : State) : State :=
  match s.rest with
  | [] => s
  | t :: ts => if t.kind.isEnd then s else { s with rest := ts, last := some t }

/-- A new node at `span`. -/
def newNode (s : State) (span : Span) : Node := ⟨s.nextId, span⟩

/-- The state after a new node. -/
def bump (s : State) : State := { s with nextId := s.nextId + 1 }

/-- Notes a fault. -/
def note (s : State) (e : ParseError) : State := { s with faults := s.faults.push e }

@[simp] theorem left_bump (s : State) : s.bump.left = s.left := rfl

@[simp] theorem left_note (s : State) (e : ParseError) : (s.note e).left = s.left := rfl

theorem isEnd_peek_iff (s : State) : s.peek.isEnd = true ↔ s.left = 0 := by
  obtain ⟨_ | ⟨t, ts⟩, _, _, _⟩ := s
  · simp [peek, left, TokenKind.isEnd]
  · by_cases h : t.kind.isEnd = true <;> simp [peek, left, h]

/-- Reading a token leaves one token less. -/
theorem left_advance {s : State} (h : s.peek.isEnd = false) : s.advance.left + 1 = s.left := by
  obtain ⟨_ | ⟨t, ts⟩, _, _, _⟩ := s
  · simp [peek, TokenKind.isEnd] at h
  · simp only [peek] at h
    simp [advance, left, h]

theorem left_advance_lt {s : State} (h : s.peek.isEnd = false) : s.advance.left < s.left := by
  have := left_advance h
  omega

/-- Reading a token that is known not to be the end of input. -/
theorem left_advance_lt_of_eq {s : State} {k : TokenKind} (h : s.peek = k)
    (hk : k.isEnd = false := by rfl) : s.advance.left < s.left :=
  left_advance_lt (h ▸ hk)

theorem left_advance_le (s : State) : s.advance.left ≤ s.left := by
  by_cases h : s.peek.isEnd = true
  · obtain ⟨_ | ⟨t, ts⟩, _, _, _⟩ := s
    · simp [advance]
    · simp only [peek] at h
      simp [advance, h]
  · have := left_advance (s := s) (by simpa using h)
    omega

/-- Skips to just after a semicolon or just before a word that starts a statement. -/
def resume (s : State) : State :=
  if _h : s.peek.isEnd then s
  else if (s.last.map Token.kind) = some (.mark .semicolon) then s
  else if s.peek.startsStatement then s
  else resume s.advance
termination_by s.left
decreasing_by
  exact left_advance_lt (by simpa using _h)

/-- Skips the token at fault and what follows it up to the next statement. -/
def recover (s : State) : State :=
  if s.peek.isEnd then s else s.advance.resume

theorem left_resume_le (s : State) : s.resume.left ≤ s.left := by
  fun_induction resume s with
  | case1 | case2 | case3 => exact Nat.le_refl _
  | case4 s _ _ _ ih => exact Nat.le_trans ih (left_advance_le s)

/-- Recovery reads at least one token, unless there is none. -/
theorem left_recover_lt {s : State} {n : Nat} (hs : s.left ≤ n) (hn : 0 < n) :
    s.recover.left < n := by
  unfold recover
  split
  · rename_i h
    rw [isEnd_peek_iff] at h
    omega
  · rename_i h
    have h1 := left_advance (s := s) (by simpa using h)
    have h2 := left_resume_le s.advance
    omega

end State

/-! ## Outcomes -/

/-- The result of parsing one construct when `n` tokens were left. -/
inductive Outcome (n : Nat) (α : Type) where
  | ok (value : α) (next : State) (read : next.left < n)
  | fail (error : ParseError) (stop : State) (kept : stop.left ≤ n)

namespace Outcome

variable {α β : Type} {m n : Nat}

/-- Goes on after a success. -/
@[inline]
def bind (x : Outcome m α) (h : m ≤ n) (f : α → (s : State) → s.left < m → Outcome n β) :
    Outcome n β :=
  match x with
  | ok a s hs => f a s hs
  | fail e s hs => fail e s (Nat.le_trans hs h)

/-- The value or fault, and the state after it. -/
def result : Outcome n α → Except ParseError α × State
  | ok a s _ => (.ok a, s)
  | fail e s _ => (.error e, s)

end Outcome

/-! ## Tokens -/

/-- Refuses the current token. -/
def refuse {α : Type} (fault : ParseFault) (s : State) : Outcome s.left α :=
  .fail ⟨fault, s.here⟩ s (Nat.le_refl _)

/-- Reads the given mark. -/
def expect (m : Mark) (s : State) : Outcome s.left Unit :=
  if h : s.peek = .mark m then
    .ok () s.advance (State.left_advance_lt_of_eq h)
  else refuse (.expectedMark m s.peek) s

/-- Reads a name. -/
def expectName (s : State) : Outcome s.left String :=
  match h : s.peek with
  | .name x =>
    .ok x s.advance (State.left_advance_lt_of_eq h)
  | found => refuse (.expectedName found) s

/-- Reads the semicolon of a statement, which `f` makes from the span that begins at `start`. -/
@[inline]
def finish {n : Nat} (start : Span) (s : State) (h : s.left < n) (f : Span → Stmt) :
    Outcome n Stmt :=
  (expect .semicolon s).bind (Nat.le_of_lt h) fun _ s' h' =>
    .ok (f (start.merge s'.behind)) s' (Nat.lt_trans h' h)

/-! ## Expressions -/

mutual

/-- An assignment, or an expression of the operators. Assignments group to the right. -/
def expression (s : State) : Outcome s.left Expr :=
  (operators 1 s).bind (Nat.le_refl _) fun target s' h' =>
    if he : s'.peek = .mark .equal then
      have ha : s'.advance.left < s.left := Nat.lt_trans (State.left_advance_lt_of_eq he) h'
      (expression s'.advance).bind (Nat.le_of_lt ha) fun value s'' h'' =>
        match target with
        | .var node name =>
          .ok (.assign (s''.newNode (node.span.merge value.span)) name value) s''.bump
            (Nat.lt_trans h'' ha)
        | _ => .fail ⟨.invalidTarget, s'.here⟩ s'' (Nat.le_of_lt (Nat.lt_trans h'' ha))
    else .ok target s' h'
termination_by 4 * s.left + 3

/-- Operands joined by operators of at least level `min`. -/
def operators (min : Nat) (s : State) : Outcome s.left Expr :=
  (unary s).bind (Nat.le_refl _) fun first s' h' => operatorsAfter min first s' h'
termination_by 4 * s.left + 2

/-- What follows a first operand: operators of at least level `min` with their right operands. -/
def operatorsAfter {n : Nat} (min : Nat) (first : Expr) (s : State) (h : s.left < n) :
    Outcome n Expr :=
  match ho : Operator.ofToken? s.peek with
  | none => .ok first s h
  | some op =>
    if op.level < min then .ok first s h
    else
      have ha : s.advance.left < s.left := State.left_advance_lt (Operator.isEnd_of_ofToken? ho)
      (operators (op.level + 1) s.advance).bind (Nat.le_of_lt (Nat.lt_trans ha h))
        fun second s' h' =>
          operatorsAfter min
            (op.join (s'.newNode (first.span.merge second.span)) first second) s'.bump
            (Nat.lt_trans h' (Nat.lt_trans ha h))
termination_by 4 * s.left
decreasing_by
  · omega
  · simp only [State.left_bump]; omega

/-- An operand with the operators in front of it. -/
def unary (s : State) : Outcome s.left Expr :=
  match ho : UnaryOp.ofToken? s.peek with
  | none => primary s
  | some op =>
    have ha : s.advance.left < s.left := State.left_advance_lt (UnaryOp.isEnd_of_ofToken? ho)
    (unary s.advance).bind (Nat.le_of_lt ha) fun operand s' h' =>
      .ok (.unary (s'.newNode (s.here.merge operand.span)) op operand) s'.bump
        (Nat.lt_trans h' ha)
termination_by 4 * s.left + 1

/-- A literal, a variable, or an expression in parentheses. -/
def primary (s : State) : Outcome s.left Expr :=
  match hl : Literal.ofToken? s.peek with
  | some l =>
    .ok (.literal (s.newNode s.here) l) s.advance.bump
      (State.left_advance_lt (Literal.isEnd_of_ofToken? hl))
  | none =>
    match hp : s.peek with
    | .name x =>
      .ok (.var (s.newNode s.here) x) s.advance.bump (State.left_advance_lt_of_eq hp)
    | .mark .leftParen =>
      have ha : s.advance.left < s.left := State.left_advance_lt_of_eq hp
      (expression s.advance).bind (Nat.le_of_lt ha) fun inner s' h' =>
        (expect .rightParen s').bind (Nat.le_of_lt (Nat.lt_trans h' ha)) fun _ s'' h'' =>
          .ok (.grouping (s''.newNode (s.here.merge s''.behind)) inner) s''.bump
            (Nat.lt_trans h'' (Nat.lt_trans h' ha))
    | found => refuse (.expectedExpression found) s
termination_by 4 * s.left

end

/-! ## Statements -/

/-- The rest of a declaration after `let`. A variable without a value is the empty string. -/
def declaredAfter {n : Nat} (start : Span) (s : State) (h : s.left < n) : Outcome n Stmt :=
  (expectName s).bind (Nat.le_of_lt h) fun name s' h' =>
    if he : s'.peek = .mark .equal then
      have ha : s'.advance.left < n :=
        Nat.lt_trans (State.left_advance_lt_of_eq he) (Nat.lt_trans h' h)
      (expression s'.advance).bind (Nat.le_of_lt ha) fun value s'' h'' =>
        finish start s'' (Nat.lt_trans h'' ha) fun span => .declare span name value
    else
      finish start s'.bump (Nat.lt_trans h' h) fun span =>
        .declare span name (.literal (s'.newNode s.here) (.string ""))

/-- The rest of a `print` statement after its word. -/
def printedAfter {n : Nat} (start : Span) (s : State) (h : s.left < n) : Outcome n Stmt :=
  (expression s).bind (Nat.le_of_lt h) fun value s' h' =>
    finish start s' (Nat.lt_trans h' h) fun span => .print span value

/-- The rest of a `read` statement after its word. -/
def readAfter {n : Nat} (start : Span) (s : State) (h : s.left < n) : Outcome n Stmt :=
  (expectName s).bind (Nat.le_of_lt h) fun name s' h' =>
    finish start s' (Nat.lt_trans h' h) fun span => .read span name

/-- An expression and its semicolon. -/
def expressionStmt (s : State) : Outcome s.left Stmt :=
  (expression s).bind (Nat.le_refl _) fun value s' h' =>
    finish s.here s' h' fun span => .expression span value

/-- A condition in parentheses. -/
def condition {n : Nat} (s : State) (h : s.left < n) : Outcome n Expr :=
  (expect .leftParen s).bind (Nat.le_of_lt h) fun _ s1 h1 =>
    (expression s1).bind (Nat.le_of_lt (Nat.lt_trans h1 h)) fun value s2 h2 =>
      (expect .rightParen s2).bind (Nat.le_of_lt (Nat.lt_trans h2 (Nat.lt_trans h1 h)))
        fun _ s3 h3 => .ok value s3 (Nat.lt_trans h3 (Nat.lt_trans h2 (Nat.lt_trans h1 h)))

/-- Where a list of declarations ends: at the end of input, and in a block also at its brace. -/
def ends (inBlock : Bool) (k : TokenKind) : Bool :=
  k.isEnd || (inBlock && k == .mark .rightBrace)

mutual

/-- A statement, which may be a branch or a loop body. -/
def statement (s : State) : Outcome s.left Stmt :=
  match hp : s.peek with
  | .word k =>
    have ha : s.advance.left < s.left := State.left_advance_lt_of_eq hp
    match k with
    | .ifWord =>
      (condition s.advance ha).bind (Nat.le_refl _) fun test s1 h1 =>
        (statement s1).bind (Nat.le_of_lt h1) fun yes s2 h2 =>
          if he : s2.peek = .word .elseWord then
            have hb : s2.advance.left < s.left :=
              Nat.lt_trans (State.left_advance_lt_of_eq he) (Nat.lt_trans h2 h1)
            (statement s2.advance).bind (Nat.le_of_lt hb) fun no s3 h3 =>
              .ok (.ifElse (s.here.merge s3.behind) test yes no) s3 (Nat.lt_trans h3 hb)
          else .ok (.ifThen (s.here.merge s2.behind) test yes) s2 (Nat.lt_trans h2 h1)
    | .whileWord =>
      (condition s.advance ha).bind (Nat.le_refl _) fun test s1 h1 =>
        (statement s1).bind (Nat.le_of_lt h1) fun body s2 h2 =>
          .ok (.whileDo (s.here.merge s2.behind) test body) s2 (Nat.lt_trans h2 h1)
    | .printWord => printedAfter s.here s.advance ha
    | .readWord => readAfter s.here s.advance ha
    | .letWord => refuse .declarationAsBranch s
    | .forWord | .returnWord | .toWord => refuse (.reserved k) s
    | _ => expressionStmt s
  | .mark .leftBrace =>
    have ha : s.advance.left < s.left := State.left_advance_lt_of_eq hp
    match declarations true [] s.advance (Nat.le_refl _) with
    | ⟨(stmts, s1), h1⟩ =>
      (expect .rightBrace s1).bind (Nat.le_of_lt (Nat.lt_of_le_of_lt h1 ha)) fun _ s2 h2 =>
        .ok (.block (s.here.merge s2.behind) stmts) s2
          (Nat.lt_trans h2 (Nat.lt_of_le_of_lt h1 ha))
  | _ => expressionStmt s
termination_by 3 * s.left

/-- A declaration or a statement. -/
def declaration (s : State) : Outcome s.left Stmt :=
  if h : s.peek = .word .letWord then
    declaredAfter s.here s.advance (State.left_advance_lt_of_eq h)
  else statement s
termination_by 3 * s.left + 1

/--
Declarations up to the end of the list. One with a fault is left out and its
fault is noted. `done` holds the statements so far, backwards.
-/
def declarations {n : Nat} (inBlock : Bool) (done : List Stmt) (s : State) (h : s.left ≤ n) :
    { r : List Stmt × State // r.2.left ≤ n } :=
  if he : ends inBlock s.peek then ⟨(done.reverse, s), h⟩
  else
    match declaration s with
    | .ok stmt s' h' =>
      declarations inBlock (stmt :: done) s' (Nat.le_of_lt (Nat.lt_of_lt_of_le h' h))
    | .fail e s' h' =>
      have hr : (s'.note e).recover.left < s.left := by
        refine State.left_recover_lt h' (Nat.pos_of_ne_zero fun h0 => he ?_)
        simp [ends, (State.isEnd_peek_iff s).mpr h0]
      declarations inBlock done (s'.note e).recover (Nat.le_of_lt (Nat.lt_of_lt_of_le hr h))
termination_by 3 * s.left + 2

end

/-! ## Whole inputs -/

/-- A whole program, or every fault in it. The faults are handed over: none is left in the state. -/
def program (s : State) : Except (List ParseError) Program × State :=
  let (stmts, s') := (declarations false [] s (Nat.le_refl _)).1
  if s'.faults.isEmpty then (.ok ⟨stmts, s.here.merge s'.behind⟩, s')
  else (.error s'.faults.toList, { s' with faults := #[] })

end Parser

/-- The program that the tokens form, or every fault in them. -/
def parse (tokens : List Token) : Except (List ParseError) Program :=
  (Parser.program (.start tokens)).1

end Dam
