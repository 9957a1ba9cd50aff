import Dam.Program.Parser

/-!
# The parser, token by token

What the parser does next depends on the kind of the current token alone. Its functions
look at that kind in nested matches that also carry termination proofs; this file takes
them apart once, into one equation for each kind of phrase. Later proofs about the
parser go from equation to equation and never open a function.

An outcome is reasoned about in two ways: `Outcome.Meets` says what holds of the end
state, whether it is a success or a failure, and `Outcome.Succeeds` says also that it is
a success.
-/

namespace Dam.Parser

/-! ## The tokens that are left -/

namespace State

/-- The kinds of the tokens that are still to be read. -/
def kinds (s : State) : List TokenKind :=
  (s.rest.takeWhile fun t => !t.kind.isEnd).map Token.kind

variable {s : State} {k : TokenKind}

@[simp] theorem faults_advance (s : State) : s.advance.faults = s.faults := by
  unfold advance
  split
  · rfl
  · split <;> rfl

@[simp] theorem faults_resume (s : State) : s.resume.faults = s.faults := by
  fun_induction resume s with
  | case1 | case2 | case3 => rfl
  | case4 s _ _ _ ih => rw [ih, faults_advance]

@[simp] theorem faults_recover (s : State) : s.recover.faults = s.faults := by
  unfold recover
  split
  · rfl
  · rw [faults_resume, faults_advance]

theorem kinds_eq_cons (h : s.peek = k) (hk : k.isEnd = false) : s.kinds = k :: s.advance.kinds := by
  obtain ⟨_ | ⟨t, ts⟩, _, _, _⟩ := s
  · subst h
    cases hk
  · change t.kind = k at h
    subst h
    simp [kinds, advance, hk]

theorem kinds_eq_nil (h : s.peek.isEnd = true) : s.kinds = [] := by
  obtain ⟨_ | ⟨t, ts⟩, _, _, _⟩ := s
  · rfl
  · change t.kind.isEnd = true at h
    simp [kinds, h]

/-- The current token is the first of those that are left. -/
theorem peek_eq_head (s : State) : s.peek = s.kinds.headD .endOfInput := by
  cases hk : s.peek.isEnd with
  | true =>
      rw [kinds_eq_nil hk]
      cases h : s.peek <;> simp_all [TokenKind.isEnd]
  | false => rw [kinds_eq_cons rfl hk, List.headD_cons]

end State

/-! ## Outcomes -/

namespace Outcome

variable {α β : Type} {m n : Nat}

/-- The outcome is a success that satisfies `Q`. -/
def Succeeds (x : Outcome n α) (Q : α → State → Prop) : Prop := ∃ a s h, x = .ok a s h ∧ Q a s

/-- A success satisfies `Q`, and a failure stops in a state that satisfies `R`. -/
def Meets (Q : α → State → Prop) (R : State → Prop) : Outcome n α → Prop
  | ok a s _ => Q a s
  | fail _ s _ => R s

theorem Succeeds.bind {x : Outcome m α} {Q : α → State → Prop} {Q' : β → State → Prop}
    {h : m ≤ n} {f : α → (s : State) → s.left < m → Outcome n β} (hx : x.Succeeds Q)
    (hf : ∀ a s hs, Q a s → (f a s hs).Succeeds Q') : (x.bind h f).Succeeds Q' := by
  obtain ⟨a, s, hs, rfl, hQ⟩ := hx
  exact hf a s hs hQ

theorem Meets.bind {x : Outcome m α} {Q : α → State → Prop} {Q' : β → State → Prop}
    {R : State → Prop} {h : m ≤ n} {f : α → (s : State) → s.left < m → Outcome n β}
    (hx : x.Meets Q R) (hf : ∀ a s hs, Q a s → (f a s hs).Meets Q' R) :
    (x.bind h f).Meets Q' R := by
  cases x with
  | ok a s hs => exact hf a s hs hx
  | fail e s hs => exact hx

theorem Meets.weaken {x : Outcome n α} {Q Q' : α → State → Prop} {R R' : State → Prop}
    (hx : x.Meets Q R) (hQ : ∀ a s, Q a s → Q' a s) (hR : ∀ s, R s → R' s) : x.Meets Q' R' := by
  cases x with
  | ok a s hs => exact hQ a s hx
  | fail e s hs => exact hR s hx

end Outcome

/-! ## Expressions -/

section

variable {s : State} {n min : Nat}

theorem expect_mark {m : Mark} (h : s.peek = .mark m) :
    expect m s = .ok () s.advance (State.left_advance_lt_of_eq h) :=
  dif_pos h

theorem expect_other {m : Mark} (h : s.peek ≠ .mark m) :
    expect m s = refuse (.expectedMark m s.peek) s :=
  dif_neg h

theorem expectName_name {x : String} (h : s.peek = .name x) :
    expectName s = .ok x s.advance (State.left_advance_lt_of_eq h) := by
  unfold expectName
  split
  · rename_i hx
    cases h.symm.trans hx
    rfl
  · rename_i hother
    exact absurd h (hother x)

theorem expectName_other (h : ∀ x, s.peek ≠ .name x) :
    expectName s = refuse (.expectedName s.peek) s := by
  unfold expectName
  split
  · rename_i x hx
    exact absurd hx (h x)
  · rfl

theorem operatorsAfter_none {first : Expr} {h : s.left < n} (ho : Operator.ofToken? s.peek = none) :
    operatorsAfter min first s h = .ok first s h := by
  rw [operatorsAfter]
  split <;> simp_all

theorem operatorsAfter_low {first : Expr} {h : s.left < n} {op : Operator}
    (ho : Operator.ofToken? s.peek = some op) (hlow : op.level < min) :
    operatorsAfter min first s h = .ok first s h := by
  rw [operatorsAfter]
  split <;> simp_all

theorem operatorsAfter_join {first : Expr} {h : s.left < n} {op : Operator}
    (ho : Operator.ofToken? s.peek = some op) (hmin : min ≤ op.level) :
    operatorsAfter min first s h =
      (operators (op.level + 1) s.advance).bind
        (Nat.le_of_lt (Nat.lt_trans (State.left_advance_lt (Operator.isEnd_of_ofToken? ho)) h))
        fun second s' h' =>
          operatorsAfter min
            (op.join (s'.newNode (first.span.merge second.span)) first second) s'.bump
            (Nat.lt_trans h'
              (Nat.lt_trans (State.left_advance_lt (Operator.isEnd_of_ofToken? ho)) h)) := by
  rw [operatorsAfter]
  split
  · simp_all
  · rename_i op' ho'
    obtain rfl : op = op' := Option.some.inj (ho.symm.trans ho')
    rw [if_neg (by omega)]

theorem unary_operand (ho : UnaryOp.ofToken? s.peek = none) : unary s = primary s := by
  rw [unary]
  split <;> simp_all

theorem unary_operator {op : UnaryOp} (ho : UnaryOp.ofToken? s.peek = some op) :
    unary s =
      (unary s.advance).bind
        (Nat.le_of_lt (State.left_advance_lt (UnaryOp.isEnd_of_ofToken? ho)))
        fun operand s' h' =>
          .ok (.unary (s'.newNode (s.here.merge operand.span)) op operand) s'.bump
            (Nat.lt_trans h' (State.left_advance_lt (UnaryOp.isEnd_of_ofToken? ho))) := by
  rw [unary]
  split
  · simp_all
  · rename_i op' ho'
    obtain rfl : op = op' := Option.some.inj (ho.symm.trans ho')
    rfl

theorem primary_literal {l : Literal} (hl : Literal.ofToken? s.peek = some l) :
    primary s = .ok (.literal (s.newNode s.here) l) s.advance.bump
      (State.left_advance_lt (Literal.isEnd_of_ofToken? hl)) := by
  rw [primary]
  split
  · rename_i l' hl'
    obtain rfl : l = l' := Option.some.inj (hl.symm.trans hl')
    rfl
  · simp_all

theorem primary_name {x : String} (h : s.peek = .name x) :
    primary s = .ok (.var (s.newNode s.here) x) s.advance.bump
      (State.left_advance_lt_of_eq h) := by
  rw [primary]
  split
  · rename_i hl
    rw [h] at hl
    cases hl
  · split
    · rename_i hx
      cases h.symm.trans hx
      rfl
    · rename_i hx
      cases h.symm.trans hx
    · rename_i hother _
      exact absurd h (hother x)

theorem primary_paren (h : s.peek = .mark .leftParen) :
    primary s =
      (expression s.advance).bind (Nat.le_of_lt (State.left_advance_lt_of_eq h))
        fun inner s' h' =>
          (expect .rightParen s').bind
            (Nat.le_of_lt (Nat.lt_trans h' (State.left_advance_lt_of_eq h))) fun _ s'' h'' =>
              .ok (.grouping (s''.newNode (s.here.merge s''.behind)) inner) s''.bump
                (Nat.lt_trans h'' (Nat.lt_trans h' (State.left_advance_lt_of_eq h))) := by
  rw [primary]
  split
  · rename_i hl
    rw [h] at hl
    cases hl
  · split
    · rename_i hx
      cases h.symm.trans hx
    · rfl
    · rename_i hother
      exact absurd h hother

theorem primary_other (hl : Literal.ofToken? s.peek = none) (hx : ∀ x, s.peek ≠ .name x)
    (hp : s.peek ≠ .mark .leftParen) :
    primary s = refuse (.expectedExpression s.peek) s := by
  rw [primary]
  split
  · rename_i hl'
    rw [hl] at hl'
    cases hl'
  · split
    · rename_i x hx'
      exact absurd hx' (hx x)
    · rename_i hp'
      exact absurd hp' hp
    · rfl

/-! ## Statements -/

theorem statement_word {k : Keyword} (h : s.peek = .word k) :
    statement s =
      match k with
      | .ifWord =>
        (condition s.advance (State.left_advance_lt_of_eq h)).bind (Nat.le_refl _)
          fun test s1 h1 =>
            (statement s1).bind (Nat.le_of_lt h1) fun yes s2 h2 =>
              if he : s2.peek = .word .elseWord then
                (statement s2.advance).bind
                  (Nat.le_of_lt
                    (Nat.lt_trans (State.left_advance_lt_of_eq he) (Nat.lt_trans h2 h1)))
                  fun no s3 h3 =>
                    .ok (.ifElse (s.here.merge s3.behind) test yes no) s3
                      (Nat.lt_trans h3
                        (Nat.lt_trans (State.left_advance_lt_of_eq he) (Nat.lt_trans h2 h1)))
              else .ok (.ifThen (s.here.merge s2.behind) test yes) s2 (Nat.lt_trans h2 h1)
      | .whileWord =>
        (condition s.advance (State.left_advance_lt_of_eq h)).bind (Nat.le_refl _)
          fun test s1 h1 =>
            (statement s1).bind (Nat.le_of_lt h1) fun body s2 h2 =>
              .ok (.whileDo (s.here.merge s2.behind) test body) s2 (Nat.lt_trans h2 h1)
      | .printWord => printedAfter s.here s.advance (State.left_advance_lt_of_eq h)
      | .readWord => readAfter s.here s.advance (State.left_advance_lt_of_eq h)
      | .letWord => refuse .declarationAsBranch s
      | .forWord | .returnWord | .toWord => refuse (.reserved k) s
      | _ => expressionStmt s := by
  rw [statement]
  split
  · rename_i k' hk
    cases h.symm.trans hk
    cases k <;> rfl
  · rename_i hk
    cases h.symm.trans hk
  · rename_i hother _
    exact absurd h (hother k)

theorem statement_brace (h : s.peek = .mark .leftBrace) :
    statement s =
      (expect .rightBrace (declarations true [] s.advance (Nat.le_refl _)).1.2).bind
        (Nat.le_of_lt (Nat.lt_of_le_of_lt (declarations true [] s.advance (Nat.le_refl _)).2
          (State.left_advance_lt_of_eq h)))
        fun _ s2 h2 =>
          .ok (.block (s.here.merge s2.behind)
              (declarations true [] s.advance (Nat.le_refl _)).1.1) s2
            (Nat.lt_trans h2 (Nat.lt_of_le_of_lt
              (declarations true [] s.advance (Nat.le_refl _)).2
              (State.left_advance_lt_of_eq h))) := by
  rw [statement]
  split
  · rename_i hk
    cases h.symm.trans hk
  · rfl
  · rename_i hother
    exact absurd h hother

theorem statement_other (hw : ∀ k, s.peek ≠ .word k) (hb : s.peek ≠ .mark .leftBrace) :
    statement s = expressionStmt s := by
  rw [statement]
  split
  · rename_i k hk
    exact absurd hk (hw k)
  · rename_i hk
    exact absurd hk hb
  · rfl

theorem declaration_let (h : s.peek = .word .letWord) :
    declaration s = declaredAfter s.here s.advance (State.left_advance_lt_of_eq h) := by
  rw [declaration, dif_pos h]

theorem declaration_other (h : s.peek ≠ .word .letWord) : declaration s = statement s := by
  rw [declaration, dif_neg h]

/-! ## Lists of declarations -/

variable {inBlock : Bool} {done : List Stmt}

theorem declarations_end {h : s.left ≤ n} (he : ends inBlock s.peek = true) :
    (declarations inBlock done s h).1 = (done.reverse, s) := by
  rw [declarations, dif_pos he]

theorem declarations_ok {h : s.left ≤ n} (he : ends inBlock s.peek = false) {stmt : Stmt}
    {s' : State} {h' : s'.left < s.left} (hd : declaration s = .ok stmt s' h') :
    (declarations inBlock done s h).1 =
      (declarations inBlock (stmt :: done) s' (Nat.le_of_lt (Nat.lt_of_lt_of_le h' h))).1 := by
  rw [declarations, dif_neg (by simp [he])]
  simp only [hd]

theorem left_pos_of_ends (he : ends inBlock s.peek = false) : 0 < s.left := by
  refine Nat.pos_of_ne_zero fun h0 => ?_
  simp [ends, (State.isEnd_peek_iff s).mpr h0] at he

theorem declarations_fail {h : s.left ≤ n} (he : ends inBlock s.peek = false) {e : ParseError}
    {s' : State} {h' : s'.left ≤ s.left} (hd : declaration s = .fail e s' h') :
    (declarations inBlock done s h).1 =
      (declarations inBlock done (s'.note e).recover (Nat.le_of_lt
        (Nat.lt_of_lt_of_le (State.left_recover_lt h' (left_pos_of_ends he)) h))).1 := by
  rw [declarations, dif_neg (by simp [he])]
  simp only [hd]

end

/-! ## Whole inputs -/

/-- The declarations of the tokens are a program if no fault was noted on the way. -/
theorem parse_eq {tokens : List Token} {stmts : List Stmt} {s : State}
    (h : (declarations false [] (.start tokens) (Nat.le_refl _)).1 = (stmts, s)) :
    parse tokens =
      if s.faults.isEmpty then .ok ⟨stmts, (State.start tokens).here.merge s.behind⟩
      else .error s.faults.toList := by
  simp only [parse, program, h]
  split <;> rfl

end Dam.Parser
