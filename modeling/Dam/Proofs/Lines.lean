import Dam.Proofs.ParserSteps
import Dam.Proofs.Spans

/-!
# Lines of the text

Whatever has a place after reading a text has it in the text: a fault of the lexer, a
token, a fault of the parser, a node of a tree. Two things could spoil this. A span that
belongs to no text, on line 0, stands for the current token when there is none, and a
node takes its place from two spans, one of which may be such a span. The parser never
runs out of tokens, since it does not read the end (`State.Within`), and the merge of two
spans begins where one of them does.

The parser is gone through once, for any property of places that merges keep
(`Span.Closed`); that a place is on a line of the text is one of them.
-/

namespace Dam

/-- The text has a line with this number. -/
def IsLine (source : String) (n : Nat) : Prop := 1 ≤ n ∧ n ≤ 1 + source.toList.count '\n'

/-! ## Faults of the lexer, and tokens -/

theorem isLine_of_prefix {source : String} {before after : List Char}
    (h : source.toList = before ++ after) : IsLine source (1 + before.count '\n') := by
  unfold IsLine
  rw [h, List.count_append]
  omega

namespace Cursor

theorem line_of_next_error {k k' : Cursor} {e : LexError} (h : k.next = (.error e, k')) :
    ∃ gap, k.Passes gap k.skipTrivia ∧ e.span.line = (k.position.afterAll gap).line := by
  obtain ⟨gap, hpass, _⟩ := skipTrivia_passes k
  refine ⟨gap, hpass, ?_⟩
  rw [← hpass.position]
  unfold next at h
  dsimp only at h
  split at h
  · cases h
  · rename_i c cs _
    cases ho : (scan c cs).outcome with
    | ok kind => simp [ho] at h
    | error fault =>
        simp only [ho, Prod.mk.injEq, Except.error.injEq] at h
        rw [← h.1]
        rfl

theorem line_of_tokensFrom_error {source : String} {done : List Token} {k k' : Cursor}
    {e : LexError} {before : List Char} (h : tokensFrom done k = (.error e, k'))
    (hk : k.position = Position.start.afterAll before) (hs : source.toList = before ++ k.rest) :
    IsLine source e.span.line := by
  -- `before` is what the cursor has passed, and grows from token to token
  fun_induction tokensFrom done k generalizing before with
  | case1 done k e k₁ hnext =>
      cases h
      obtain ⟨gap, hpass, hline⟩ := line_of_next_error hnext
      have hsplit : source.toList = before ++ gap ++ k.skipTrivia.rest := by
        rw [hs, hpass.rest, List.append_assoc]
      rw [hline, hk, ← Position.afterAll_append, Position.afterAll_start]
      exact isLine_of_prefix hsplit
  | case2 done k t k₁ hnext ht => cases h
  | case3 done k t k₁ hnext ht ih =>
      obtain ⟨gap, lexeme, hpass, _⟩ := lexeme_of_next hnext
      have hk₁ : k₁.position = Position.start.afterAll (before ++ (gap ++ lexeme)) := by
        rw [hpass.position, hk, ← Position.afterAll_append]
      exact ih h hk₁ (by rw [hs, hpass.rest, List.append_assoc before])

end Cursor

theorem line_of_lex_error {source : String} {e : LexError} (h : lex source = .error e) :
    IsLine source e.span.line := by
  have hrun : Cursor.tokensFrom [] (.ofText source) =
      (.error e, (Cursor.tokens (.ofText source)).2) := Prod.ext h rfl
  have hstart : (Cursor.ofText source).position = Position.start.afterAll [] := rfl
  exact Cursor.line_of_tokensFrom_error hrun hstart rfl

theorem line_of_token {source : String} {tokens : List Token} (h : lex source = .ok tokens) :
    ∀ t ∈ tokens, IsLine source t.span.line := by
  intro t ht
  have hwhole : source = "" ++ source := by simp
  obtain ⟨before, lexeme, after, hs, hspan, _⟩ := (tiles_of_lex h).stands hwhole t ht
  have hsplit : source.toList = before.toList ++ (lexeme ++ after).toList := by
    rw [← String.toList_append, ← String.append_assoc, ← hs]
  rw [hspan]
  exact isLine_of_prefix hsplit

/-! ## Trees -/

/-- All nodes of the expression stand at places that are `P`. -/
def Expr.Placed (P : Span → Prop) : Expr → Prop
  | literal n _ | var n _ => P n.span
  | unary n _ a | grouping n a | assign n _ a => P n.span ∧ a.Placed P
  | binary n l _ r | logical n l _ r => P n.span ∧ l.Placed P ∧ r.Placed P

namespace Stmt

mutual

/-- The statement, and all statements and expressions in it, stand at places that are `P`. -/
def Placed (P : Span → Prop) : Stmt → Prop
  | declare s _ e | print s e | expression s e => P s ∧ e.Placed P
  | read s _ => P s
  | ifThen s e yes => P s ∧ e.Placed P ∧ yes.Placed P
  | ifElse s e yes no => P s ∧ e.Placed P ∧ yes.Placed P ∧ no.Placed P
  | whileDo s e body => P s ∧ e.Placed P ∧ body.Placed P
  | block s ss => P s ∧ PlacedAll P ss

/-- The statements, and all in them, stand at places that are `P`. -/
def PlacedAll (P : Span → Prop) : List Stmt → Prop
  | [] => True
  | st :: sts => st.Placed P ∧ PlacedAll P sts

end

end Stmt

variable {P : Span → Prop}

theorem Stmt.placedAll_iff (ss : List Stmt) : PlacedAll P ss ↔ ∀ st ∈ ss, st.Placed P := by
  induction ss with
  | nil => simp [PlacedAll]
  | cons st sts ih => rw [PlacedAll, ih, List.forall_mem_cons]

theorem Expr.Placed.span {e : Expr} (h : e.Placed P) : P e.span := by
  cases e with
  | literal | var => exact h
  | unary | binary | logical | grouping | assign => exact h.1

/-- A property of places that a merge has from its parts, of which the second one may belong to
no text. -/
class Span.Closed (P : Span → Prop) : Prop where
  merge : ∀ {a b : Span}, P a → b.isSynthetic = true ∨ P b → P (a.merge b)

/-- It is enough to look at two spans of a text, one of which says where the merge begins. -/
theorem Span.Closed.of_parts (h : ∀ {a b first : Span}, P a → P b → first = a ∨ first = b →
    P ⟨min a.start b.start, max a.stop b.stop, first.line, first.col⟩) : Span.Closed P where
  merge {a b} ha hb := by
    unfold Span.merge
    by_cases hs : b.isSynthetic = true
    · rw [if_pos hs]
      exact ha
    · have hb := hb.resolve_left hs
      rw [if_neg hs]
      by_cases hs' : a.isSynthetic = true
      · rw [if_pos hs']
        exact hb
      · rw [if_neg hs']
        exact h ha hb (ite_eq_or_eq _ a b)

/-- The place is on a line that is `L`. -/
def Span.OnLine (L : Nat → Prop) (s : Span) : Prop := L s.line

instance (L : Nat → Prop) : Span.Closed (Span.OnLine L) := by
  refine .of_parts fun ha hb hfirst => ?_
  rcases hfirst with rfl | rfl
  · exact ha
  · exact hb

/-! ## The parser -/

namespace Parser

/-- All places that the state knows of are `P`, and the end is still to come. -/
structure State.Within (P : Span → Prop) (s : State) : Prop where
  ended : ∃ t ∈ s.rest, t.kind = .endOfInput
  tokens : ∀ t ∈ s.rest, P t.span
  last : ∀ t, s.last = some t → P t.span
  faults : ∀ e ∈ s.faults, P e.span

namespace State.Within

variable {s : State}

theorem here (hs : s.Within P) : P s.here := by
  unfold State.here
  split
  · -- there is no token only if the end was read
    rename_i hrest
    obtain ⟨t, ht, _⟩ := hs.ended
    rw [hrest] at ht
    cases ht
  · rename_i t ts hrest
    exact hs.tokens t (by rw [hrest]; exact List.mem_cons_self)

theorem behind (hs : s.Within P) : s.behind.isSynthetic = true ∨ P s.behind := by
  unfold State.behind
  split
  · exact .inl rfl
  · exact .inr (hs.last _ ‹_›)

theorem bump (hs : s.Within P) : s.bump.Within P := ⟨hs.ended, hs.tokens, hs.last, hs.faults⟩

theorem advance (hs : s.Within P) : s.advance.Within P := by
  unfold State.advance
  split
  · exact hs
  · rename_i t ts hrest
    split
    · exact hs
    · rename_i hend
      have htokens := hs.tokens
      rw [hrest, List.forall_mem_cons] at htokens
      -- the token read is not the end, so the end is among the others
      obtain ⟨u, hu, hkind⟩ := hs.ended
      rw [hrest] at hu
      rcases List.mem_cons.mp hu with rfl | hu
      · rw [hkind] at hend
        exact absurd rfl hend
      · exact ⟨⟨u, hu, hkind⟩, htokens.2, by rintro _ ⟨⟩; exact htokens.1, hs.faults⟩

theorem note (hs : s.Within P) {e : ParseError} (he : P e.span) : (s.note e).Within P := by
  refine ⟨hs.ended, hs.tokens, hs.last, fun e' he' => ?_⟩
  rcases Array.mem_push.mp he' with he' | rfl
  · exact hs.faults e' he'
  · exact he

theorem resume (hs : s.Within P) : s.resume.Within P := by
  fun_induction State.resume s with
  | case1 | case2 | case3 => exact hs
  | case4 s _ _ _ ih => exact ih hs.advance

theorem recover (hs : s.Within P) : s.recover.Within P := by
  unfold State.recover
  split
  · exact hs
  · exact hs.advance.resume

end State.Within

/-- The outcome stays within the places that are `P`, and its value is `Q`. -/
def Outcome.Stays {n : Nat} {α : Type} (P : Span → Prop) (Q : α → Prop) : Outcome n α → Prop
  | ok a s _ => Q a ∧ s.Within P
  | fail e s _ => P e.span ∧ s.Within P

theorem Outcome.Stays.bind {α β : Type} {m n : Nat} {x : Outcome m α} {Q : α → Prop}
    {R : β → Prop} {h : m ≤ n} {f : α → (s : State) → s.left < m → Outcome n β}
    (hx : x.Stays P Q) (hf : ∀ a s hs, Q a → s.Within P → (f a s hs).Stays P R) :
    (x.bind h f).Stays P R := by
  cases x with
  | ok a s hs => exact hf a s hs hx.1 hx.2
  | fail e s hs => exact hx

section

variable {s : State} (hs : s.Within P)
include hs

theorem refuse_stays {α : Type} (fault : ParseFault) (Q : α → Prop) :
    (refuse fault s : Outcome s.left α).Stays P Q :=
  ⟨hs.here, hs⟩

theorem expect_stays (m : Mark) : (expect m s).Stays P fun _ => True := by
  by_cases h : s.peek = .mark m
  · rw [expect_mark h]
    exact ⟨trivial, hs.advance⟩
  · rw [expect_other h]
    exact refuse_stays hs _ _

theorem expectName_stays : (expectName s).Stays P fun _ => True := by
  by_cases h : ∃ x, s.peek = .name x
  · obtain ⟨x, hx⟩ := h
    rw [expectName_name hx]
    exact ⟨trivial, hs.advance⟩
  · rw [expectName_other fun x hx => h ⟨x, hx⟩]
    exact refuse_stays hs _ _

end

-- The recursion is that of the parser, and so are the measures.
mutual

theorem expression_stays [Span.Closed P] {s : State} (hs : s.Within P) :
    (expression s).Stays P (Expr.Placed P) := by
  rw [expression]
  refine (operators_stays 1 hs).bind fun target s₁ hlt₁ htarget hs₁ => ?_
  by_cases he : s₁.peek = .mark .equal
  · have hlt : s₁.advance.left < s.left := Nat.lt_trans (State.left_advance_lt_of_eq he) hlt₁
    rw [dif_pos he]
    refine (expression_stays hs₁.advance).bind fun value s₂ _ hvalue hs₂ => ?_
    cases target with
    | var node x => exact ⟨⟨Span.Closed.merge htarget (.inr hvalue.span), hvalue⟩, hs₂.bump⟩
    -- the fault stands at the sign, though the value behind it has been read
    | literal | unary | binary | logical | grouping | assign => exact ⟨hs₁.here, hs₂⟩
  · rw [dif_neg he]
    exact ⟨htarget, hs₁⟩
termination_by 4 * s.left + 3

theorem operators_stays [Span.Closed P] (min : Nat) {s : State} (hs : s.Within P) :
    (operators min s).Stays P (Expr.Placed P) := by
  rw [operators]
  exact (unary_stays hs).bind fun first s₁ hlt hfirst hs₁ =>
    operatorsAfter_stays min hlt hfirst hs₁
termination_by 4 * s.left + 2

theorem operatorsAfter_stays [Span.Closed P] {n : Nat} (min : Nat) {first : Expr} {s : State}
    (h : s.left < n) (hfirst : first.Placed P) (hs : s.Within P) :
    (operatorsAfter min first s h).Stays P (Expr.Placed P) := by
  cases ho : Operator.ofToken? s.peek with
  | none =>
      rw [operatorsAfter_none ho]
      exact ⟨hfirst, hs⟩
  | some op =>
      by_cases hmin : op.level < min
      · rw [operatorsAfter_low ho hmin]
        exact ⟨hfirst, hs⟩
      · have hlt := State.left_advance_lt (Operator.isEnd_of_ofToken? ho)
        rw [operatorsAfter_join ho (Nat.le_of_not_lt hmin)]
        refine (operators_stays (op.level + 1) hs.advance).bind fun second s₁ hlt₁ hsecond hs₁ => ?_
        refine operatorsAfter_stays min _ ?_ hs₁.bump
        have hspan := Span.Closed.merge hfirst.span (.inr hsecond.span)
        cases op <;> exact ⟨hspan, hfirst, hsecond⟩
termination_by 4 * s.left

theorem unary_stays [Span.Closed P] {s : State} (hs : s.Within P) :
    (unary s).Stays P (Expr.Placed P) := by
  cases ho : UnaryOp.ofToken? s.peek with
  | none =>
      rw [unary_operand ho]
      exact primary_stays hs
  | some op =>
      have hlt := State.left_advance_lt (UnaryOp.isEnd_of_ofToken? ho)
      rw [unary_operator ho]
      refine (unary_stays hs.advance).bind fun operand s₁ _ hoperand hs₁ => ?_
      exact ⟨⟨Span.Closed.merge hs.here (.inr hoperand.span), hoperand⟩, hs₁.bump⟩
termination_by 4 * s.left + 1

theorem primary_stays [Span.Closed P] {s : State} (hs : s.Within P) :
    (primary s).Stays P (Expr.Placed P) := by
  cases hl : Literal.ofToken? s.peek with
  | some l =>
      rw [primary_literal hl]
      exact ⟨hs.here, hs.advance.bump⟩
  | none =>
      by_cases hx : ∃ x, s.peek = .name x
      · obtain ⟨x, hx⟩ := hx
        rw [primary_name hx]
        exact ⟨hs.here, hs.advance.bump⟩
      · by_cases hp : s.peek = .mark .leftParen
        · have hlt := State.left_advance_lt_of_eq hp
          rw [primary_paren hp]
          refine (expression_stays hs.advance).bind fun inner s₁ _ hinner hs₁ => ?_
          refine (expect_stays hs₁ .rightParen).bind fun _ s₂ _ _ hs₂ => ?_
          exact ⟨⟨Span.Closed.merge hs.here hs₂.behind, hinner⟩, hs₂.bump⟩
        · rw [primary_other hl (fun x h => hx ⟨x, h⟩) hp]
          exact refuse_stays hs _ _
termination_by 4 * s.left

end

section

variable [Span.Closed P] {s : State} {n : Nat} {start : Span} (hstart : P start) (h : s.left < n)
  (hs : s.Within P)
include hs

theorem condition_stays : (condition s h).Stays P (Expr.Placed P) := by
  unfold condition
  refine (expect_stays hs .leftParen).bind fun _ s₁ _ _ hs₁ => ?_
  refine (expression_stays hs₁).bind fun value s₂ _ hvalue hs₂ => ?_
  refine (expect_stays hs₂ .rightParen).bind fun _ s₃ _ _ hs₃ => ?_
  exact ⟨hvalue, hs₃⟩

include hstart

theorem finish_stays {f : Span → Stmt} (hf : ∀ span, P span → (f span).Placed P) :
    (finish start s h f).Stays P (Stmt.Placed P) := by
  unfold finish
  refine (expect_stays hs .semicolon).bind fun _ s₁ _ _ hs₁ => ?_
  exact ⟨hf _ (Span.Closed.merge hstart hs₁.behind), hs₁⟩

theorem declaredAfter_stays : (declaredAfter start s h).Stays P (Stmt.Placed P) := by
  unfold declaredAfter
  refine (expectName_stays hs).bind fun x s₁ _ _ hs₁ => ?_
  by_cases he : s₁.peek = .mark .equal
  · rw [dif_pos he]
    refine (expression_stays hs₁.advance).bind fun value s₂ _ hvalue hs₂ => ?_
    exact finish_stays hstart _ hs₂ fun _ hspan => ⟨hspan, hvalue⟩
  · rw [dif_neg he]
    -- the value that is not written stands where the name does
    exact finish_stays hstart _ hs₁.bump fun _ hspan => ⟨hspan, hs.here⟩

theorem printedAfter_stays : (printedAfter start s h).Stays P (Stmt.Placed P) := by
  unfold printedAfter
  refine (expression_stays hs).bind fun value s₁ _ hvalue hs₁ => ?_
  exact finish_stays hstart _ hs₁ fun _ hspan => ⟨hspan, hvalue⟩

theorem readAfter_stays : (readAfter start s h).Stays P (Stmt.Placed P) := by
  unfold readAfter
  refine (expectName_stays hs).bind fun x s₁ _ _ hs₁ => ?_
  exact finish_stays hstart _ hs₁ fun _ hspan => hspan

omit hstart in
theorem expressionStmt_stays : (expressionStmt s).Stays P (Stmt.Placed P) := by
  unfold expressionStmt
  refine (expression_stays hs).bind fun value s₁ _ hvalue hs₁ => ?_
  exact finish_stays hs.here _ hs₁ fun _ hspan => ⟨hspan, hvalue⟩

end

mutual

theorem statement_stays [Span.Closed P] {s : State} (hs : s.Within P) :
    (statement s).Stays P (Stmt.Placed P) := by
  by_cases hw : ∃ k, s.peek = .word k
  · obtain ⟨k, hk⟩ := hw
    have hlt := State.left_advance_lt_of_eq hk
    rw [statement_word hk]
    cases k with
    | ifWord =>
        refine (condition_stays hlt hs.advance).bind fun test s₁ hlt₁ htest hs₁ => ?_
        refine (statement_stays hs₁).bind fun yes s₂ hlt₂ hyes hs₂ => ?_
        by_cases he : s₂.peek = .word .elseWord
        · have hlt₃ := State.left_advance_lt_of_eq he
          rw [dif_pos he]
          refine (statement_stays hs₂.advance).bind fun no s₃ _ hno hs₃ => ?_
          exact ⟨⟨Span.Closed.merge hs.here hs₃.behind, htest, hyes, hno⟩, hs₃⟩
        · rw [dif_neg he]
          exact ⟨⟨Span.Closed.merge hs.here hs₂.behind, htest, hyes⟩, hs₂⟩
    | whileWord =>
        refine (condition_stays hlt hs.advance).bind fun test s₁ hlt₁ htest hs₁ => ?_
        refine (statement_stays hs₁).bind fun body s₂ _ hbody hs₂ => ?_
        exact ⟨⟨Span.Closed.merge hs.here hs₂.behind, htest, hbody⟩, hs₂⟩
    | printWord => exact printedAfter_stays hs.here hlt hs.advance
    | readWord => exact readAfter_stays hs.here hlt hs.advance
    | letWord | forWord | returnWord | toWord => exact refuse_stays hs _ _
    | _ => exact expressionStmt_stays hs
  · by_cases hb : s.peek = .mark .leftBrace
    · have hlt := State.left_advance_lt_of_eq hb
      -- a block does not fail, whatever is in it: its faults are in the state behind it
      have hblock := declarations_stays true (Nat.le_refl s.advance.left)
        (List.forall_mem_nil _) hs.advance
      rw [statement_brace hb]
      refine (expect_stays hblock.2 .rightBrace).bind fun _ s₂ _ _ hs₂ => ?_
      exact ⟨⟨Span.Closed.merge hs.here hs₂.behind, (Stmt.placedAll_iff _).mpr hblock.1⟩, hs₂⟩
    · rw [statement_other (fun k hk => hw ⟨k, hk⟩) hb]
      exact expressionStmt_stays hs
termination_by 3 * s.left

theorem declaration_stays [Span.Closed P] {s : State} (hs : s.Within P) :
    (declaration s).Stays P (Stmt.Placed P) := by
  by_cases hk : s.peek = .word .letWord
  · rw [declaration_let hk]
    exact declaredAfter_stays hs.here _ hs.advance
  · rw [declaration_other hk]
    exact statement_stays hs
termination_by 3 * s.left + 1

theorem declarations_stays [Span.Closed P] (inBlock : Bool) {n : Nat} {done : List Stmt} {s : State}
    (h : s.left ≤ n) (hdone : ∀ st ∈ done, st.Placed P) (hs : s.Within P) :
    (∀ st ∈ (declarations inBlock done s h).1.1, st.Placed P) ∧
      (declarations inBlock done s h).1.2.Within P := by
  cases he : ends inBlock s.peek with
  | true =>
      rw [declarations_end he]
      exact ⟨fun st hst => hdone st (List.mem_reverse.mp hst), hs⟩
  | false =>
      have hd := declaration_stays hs
      cases hrun : declaration s with
      | ok st s₁ hlt =>
          rw [hrun] at hd
          rw [declarations_ok he hrun]
          exact declarations_stays inBlock _ (List.forall_mem_cons.mpr ⟨hd.1, hdone⟩) hd.2
      | fail e s₁ hle =>
          rw [hrun] at hd
          -- the fault is noted where it was found, and the next declaration begins behind it
          have hlt := State.left_recover_lt (s := s₁.note e) hle (left_pos_of_ends he)
          rw [declarations_fail he hrun]
          exact declarations_stays inBlock _ hdone (hd.2.note hd.1).recover
termination_by 3 * s.left + 2

end

/-- **What is parsed from a text, or is wrong with it, has its place from the tokens.** -/
theorem places_of_parse [Span.Closed P] {source : String} {tokens : List Token}
    (h : lex source = .ok tokens) (htokens : ∀ t ∈ tokens, P t.span) :
    (∀ p, parse tokens = .ok p → P p.span ∧ Stmt.PlacedAll P p.stmts) ∧
      ∀ es, parse tokens = .error es → es ≠ [] ∧ ∀ e ∈ es, P e.span := by
  have hstart : (State.start tokens).Within P := by
    refine ⟨?_, htokens, nofun, by simp [State.start]⟩
    obtain ⟨body, rfl, _⟩ := (tiles_of_lex h).ends
    exact ⟨_, List.mem_append_right _ (List.mem_singleton_self _), rfl⟩
  have hrun := declarations_stays false (Nat.le_refl _) (List.forall_mem_nil _) hstart
  rw [parse_eq rfl]
  split
  · refine ⟨?_, nofun⟩
    rintro p ⟨⟩
    exact ⟨Span.Closed.merge hstart.here hrun.2.behind, (Stmt.placedAll_iff _).mpr hrun.1⟩
  · rename_i hfaults
    refine ⟨nofun, ?_⟩
    rintro es ⟨⟩
    exact ⟨by simpa using hfaults, fun e he => hrun.2.faults e (Array.mem_toList_iff.mp he)⟩

/-- In particular it stands on lines of the text. -/
theorem lines_of_parse {source : String} {tokens : List Token} (h : lex source = .ok tokens) :
    (∀ p, parse tokens = .ok p → Stmt.PlacedAll (Span.OnLine (IsLine source)) p.stmts) ∧
      ∀ es, parse tokens = .error es → es ≠ [] ∧ ∀ e ∈ es, IsLine source e.span.line := by
  obtain ⟨hok, herror⟩ := places_of_parse (P := Span.OnLine (IsLine source)) h (line_of_token h)
  exact ⟨fun p hp => (hok p hp).2, herror⟩

end Parser

end Dam
