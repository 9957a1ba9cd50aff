import Dam.Proofs.Grammar
import Dam.Proofs.ParserSteps

/-!
# What the parser accepts is in the grammar

A run of the parser that notes no fault has read tokens that derive the tree it gives
back. The parser goes on after a fault, and a block with a fault in it is still a
statement, so the statement about one phrase is in two parts (`Reads`): faults are never
taken back, and if there are no more of them at the end, the tokens in between are a
phrase.

The loop over operators keeps a first operand of some level `m` such that the operator
behind it, if there is one, is of level `m` at most.
-/

namespace Dam.Parser

open Grammar

/-! ## Reading -/

/-- Between the states, tokens were read that are `P`, unless a fault was noted. -/
def Reads (P : List TokenKind → Prop) (s s' : State) : Prop :=
  s.faults.size ≤ s'.faults.size ∧
    (s'.faults.size = s.faults.size → ∃ ks, s.kinds = ks ++ s'.kinds ∧ P ks)

/-- The outcome reads tokens that are `P` with its value and the state behind them. -/
def Outcome.Reads {n : Nat} {α : Type} (x : Outcome n α) (s : State)
    (P : List TokenKind → α → State → Prop) : Prop :=
  x.Meets (fun a s' => Parser.Reads (fun ks => P ks a s') s s')
    (fun s' => s.faults.size ≤ s'.faults.size)

section

variable {α β : Type} {m n : Nat} {s s₁ s₂ : State} {k : TokenKind}

theorem reads_token (h : s.peek = k) (hk : k.isEnd = false) : Reads (· = [k]) s s.advance := by
  refine ⟨by simp, fun _ => ⟨[k], ?_, rfl⟩⟩
  exact State.kinds_eq_cons h hk

theorem Reads.trans {P Q R : List TokenKind → Prop} (h : Reads P s s₁) (h' : Reads Q s₁ s₂)
    (hR : ∀ ks ks', P ks → Q ks' → R (ks ++ ks')) : Reads R s s₂ := by
  refine ⟨Nat.le_trans h.1 h'.1, fun hsize => ?_⟩
  have h₁ := h.1
  have h₂ := h'.1
  obtain ⟨ks, hks, hP⟩ := h.2 (by omega)
  obtain ⟨ks', hks', hQ⟩ := h'.2 (by omega)
  exact ⟨ks ++ ks', by rw [hks, hks', List.append_assoc], hR ks ks' hP hQ⟩

namespace Outcome

variable {P : List TokenKind → α → State → Prop} {R : List TokenKind → β → State → Prop}

theorem Reads.ok {b : β} {h : s₁.left < n} (hk : s₁.kinds = s.kinds) (hf : s₁.faults = s.faults)
    (hR : R [] b s₁) : (Outcome.ok b s₁ h).Reads s R :=
  ⟨by simp [hf], fun _ => ⟨[], by rw [hk, List.nil_append], hR⟩⟩

theorem Reads.fail {e : ParseError} {h : s₁.left ≤ n} (hf : s₁.faults = s.faults) :
    (Outcome.fail e s₁ h : Outcome n β).Reads s R := by
  change s.faults.size ≤ s₁.faults.size
  simp [hf]

theorem Reads.mono {x : Outcome n β} {Q : List TokenKind → β → State → Prop} (hx : x.Reads s Q)
    (hR : ∀ ks b s', Q ks b s' → R ks b s') : x.Reads s R := by
  refine Meets.weaken hx ?_ fun _ h => h
  rintro b s' ⟨hsize, h⟩
  refine ⟨hsize, fun heq => ?_⟩
  obtain ⟨ks, hks, hQ⟩ := h heq
  exact ⟨ks, hks, hR ks b s' hQ⟩

/-- What is read first stands in front of what is read then. -/
theorem Reads.after {x : Outcome n β} {Q : List TokenKind → Prop} (h : Parser.Reads Q s s₁)
    (hx : x.Reads s₁ fun ks' b s' => ∀ ks, Q ks → R (ks ++ ks') b s') : x.Reads s R := by
  refine Meets.weaken hx ?_ fun s' hs' => Nat.le_trans h.1 hs'
  intro b s' hb
  exact h.trans hb fun ks ks' hks hks' => hks' ks hks

theorem Reads.bind {x : Outcome m α} {h : m ≤ n} {f : α → (s : State) → s.left < m → Outcome n β}
    (hx : x.Reads s P)
    (hf : ∀ a s₁ hs, (f a s₁ hs).Reads s₁ fun ks' b s' => ∀ ks, P ks a s₁ → R (ks ++ ks') b s') :
    (x.bind h f).Reads s R := by
  refine Meets.bind hx fun a s₁ hs ha => ?_
  exact Reads.after ha (hf a s₁ hs)

end Outcome

end

theorem refuse_reads {α : Type} (s : State) (fault : ParseFault)
    (R : List TokenKind → α → State → Prop) : (refuse fault s).Reads s R :=
  Outcome.Reads.fail rfl

theorem expect_reads (m : Mark) (s : State) :
    (expect m s).Reads s fun ks _ _ => ks = [.mark m] := by
  by_cases h : s.peek = .mark m
  · rw [expect_mark h]
    refine .after (reads_token h rfl) (.ok rfl rfl ?_)
    rintro _ rfl
    rfl
  · rw [expect_other h]
    exact refuse_reads ..

theorem expectName_reads (s : State) :
    (expectName s).Reads s fun ks x _ => ks = [.name x] := by
  by_cases h : ∃ x, s.peek = .name x
  · obtain ⟨x, hx⟩ := h
    rw [expectName_name hx]
    refine .after (reads_token hx rfl) (.ok rfl rfl ?_)
    rintro _ rfl
    rfl
  · rw [expectName_other fun x hx => h ⟨x, hx⟩]
    exact refuse_reads ..

/-! ## Expressions -/

/-- No operator of level `n` or tighter comes next. -/
def Below (n : Nat) (s : State) : Prop :=
  ∀ op, Operator.ofToken? s.peek = some op → op.level < n

theorem operatorsAfter_stop {n min : Nat} {first : Expr} {s : State} {h : s.left < n}
    (hbelow : Below min s) : operatorsAfter min first s h = .ok first s h := by
  cases ho : Operator.ofToken? s.peek with
  | none => exact operatorsAfter_none ho
  | some op => exact operatorsAfter_low ho (hbelow op ho)

-- The recursion is that of the parser, and so are the measures.
mutual

theorem expression_reads (s : State) :
    (expression s).Reads s fun ks e _ => Expression ks e.shape := by
  rw [expression]
  refine (operators_reads 1 (by decide) s).bind fun target s₁ hs₁ => ?_
  by_cases he : s₁.peek = .mark .equal
  · have hlt : s₁.advance.left < s.left := Nat.lt_trans (State.left_advance_lt_of_eq he) hs₁
    rw [dif_pos he]
    refine .after (reads_token he rfl) ?_
    refine (expression_reads s₁.advance).bind fun value s₂ _ => ?_
    cases target with
    | var node x =>
        refine .ok rfl rfl ?_
        rintro ks hvalue _ rfl ks₀ ⟨hvar, -⟩
        obtain rfl := hvar.eq_of_var rfl
        simpa [Expr.bare] using Expression.assign hvalue
    | literal | unary | binary | logical | grouping | assign => exact .fail rfl
  · rw [dif_neg he]
    refine .ok rfl rfl ?_
    rintro ks ⟨htarget, -⟩
    simpa using Expression.level htarget
termination_by 4 * s.left + 3

theorem operators_reads (min : Nat) (hmin : min ≤ 7) (s : State) :
    (operators min s).Reads s fun ks e s' => Level min ks e.shape ∧ Below min s' := by
  rw [operators]
  refine (unary_reads s).bind fun first s₁ hs₁ => ?_
  refine (operatorsAfter_reads min first s₁ hs₁).mono ?_
  intro ks' e s' h ks hfirst
  exact h 7 ks hmin (fun op _ => Nat.le_succ_of_le (Operator.level_le op)) (.operand hfirst)
termination_by 4 * s.left + 2

theorem operatorsAfter_reads {n : Nat} (min : Nat) (first : Expr) (s : State) (h : s.left < n) :
    (operatorsAfter min first s h).Reads s fun ks' e s' =>
      ∀ m ks, min ≤ m → (∀ op, Operator.ofToken? s.peek = some op → op.level ≤ m) →
        Level m ks first.shape → Level min (ks ++ ks') e.shape ∧ Below min s' := by
  by_cases hbelow : Below min s
  · rw [operatorsAfter_stop hbelow]
    refine .ok rfl rfl ?_
    intro m ks hm _ hfirst
    exact ⟨by simpa using hfirst.loosen hm, hbelow⟩
  · obtain ⟨op, ho, hmin⟩ : ∃ op, Operator.ofToken? s.peek = some op ∧ min ≤ op.level := by
      simpa [Below] using hbelow
    have hlt := State.left_advance_lt (Operator.isEnd_of_ofToken? ho)
    have hlevel := Operator.level_le op
    rw [operatorsAfter_join ho hmin]
    refine .after (reads_token rfl (Operator.isEnd_of_ofToken? ho)) ?_
    refine (operators_reads (op.level + 1) (by omega) s.advance).bind fun second s₁ hs₁ => ?_
    refine Outcome.Reads.mono (operatorsAfter_reads min _ s₁.bump _) ?_
    -- the joined phrase is of the level of its operator, and so at most is what comes behind it
    rintro ks'' e s' hrest ks' ⟨hsecond, hnone⟩ _ rfl m ks hm hnext hfirst
    have hjoin := Level.join (hfirst.loosen (hnext op ho)) (joins_iff.mpr ⟨ho, rfl⟩) hsecond
    have hafter := hrest op.level _ hmin (fun op' h' => Nat.le_of_lt_succ (hnone op' h'))
      (by simpa using hjoin)
    simpa using hafter
termination_by 4 * s.left

theorem unary_reads (s : State) : (unary s).Reads s fun ks e _ => Unary ks e.shape := by
  cases ho : UnaryOp.ofToken? s.peek with
  | none =>
      rw [unary_operand ho]
      exact (primary_reads s).mono fun _ _ _ h => .primary h
  | some op =>
      have hlt := State.left_advance_lt (UnaryOp.isEnd_of_ofToken? ho)
      rw [unary_operator ho]
      refine .after (reads_token rfl (UnaryOp.isEnd_of_ofToken? ho)) ?_
      refine (unary_reads s.advance).bind fun operand s₁ _ => .ok rfl rfl ?_
      rintro ks hoperand _ rfl
      simpa [Expr.bare] using Unary.operator (changes_iff.mpr ho) hoperand
termination_by 4 * s.left + 1

theorem primary_reads (s : State) : (primary s).Reads s fun ks e _ => Primary ks e.shape := by
  cases hl : Literal.ofToken? s.peek with
  | some l =>
      rw [primary_literal hl]
      refine .after (reads_token rfl (Literal.isEnd_of_ofToken? hl)) (.ok rfl rfl ?_)
      rintro _ rfl
      exact .literal (denotes_iff.mpr hl)
  | none =>
      by_cases hx : ∃ x, s.peek = .name x
      · obtain ⟨x, hx⟩ := hx
        rw [primary_name hx]
        refine .after (reads_token hx rfl) (.ok rfl rfl ?_)
        rintro _ rfl
        exact .name
      · by_cases hp : s.peek = .mark .leftParen
        · have hlt := State.left_advance_lt_of_eq hp
          rw [primary_paren hp]
          refine .after (reads_token hp rfl) ?_
          refine (expression_reads s.advance).bind fun inner s₁ _ => ?_
          refine (expect_reads .rightParen s₁).bind fun _ s₂ _ => .ok rfl rfl ?_
          rintro _ rfl ks hinner _ rfl
          simpa [Expr.bare] using Primary.grouping hinner
        · rw [primary_other hl (fun x h => hx ⟨x, h⟩) hp]
          exact refuse_reads ..
termination_by 4 * s.left

end

/-! ## Statements -/

section

variable {n : Nat} (start : Span) (s : State) (h : s.left < n)

theorem finish_reads (f : Span → Stmt) :
    (finish start s h f).Reads s fun ks st _ => ks = [.mark .semicolon] ∧ ∃ span, st = f span := by
  refine (expect_reads .semicolon s).bind fun _ s₁ _ => .ok rfl rfl ?_
  rintro _ rfl
  exact ⟨rfl, _, rfl⟩

theorem declaredAfter_reads :
    (declaredAfter start s h).Reads s fun ks st _ =>
      Declaration (.word .letWord :: ks) st.shape := by
  refine (expectName_reads s).bind fun x s₁ _ => ?_
  by_cases he : s₁.peek = .mark .equal
  · rw [dif_pos he]
    refine .after (reads_token he rfl) ?_
    refine (expression_reads s₁.advance).bind fun value s₂ _ => ?_
    refine (finish_reads ..).mono ?_
    rintro _ _ _ ⟨rfl, span, rfl⟩ ks hvalue _ rfl _ rfl
    simpa [Stmt.bare] using Declaration.initialized hvalue
  · rw [dif_neg he]
    refine Outcome.Reads.mono (finish_reads start s₁.bump _ _) ?_
    rintro _ _ _ ⟨rfl, span, rfl⟩ _ rfl
    exact Declaration.empty

/-- The tokens are a statement that could have no `else` behind it. -/
def Whole (ks : List TokenKind) (st : Stmt) : Prop :=
  Statement ks st.shape ∧ st.endsOpen = false

theorem printedAfter_reads :
    (printedAfter start s h).Reads s fun ks st _ => Whole (.word .printWord :: ks) st := by
  refine (expression_reads s).bind fun value s₁ _ => ?_
  refine (finish_reads ..).mono ?_
  rintro _ _ _ ⟨rfl, span, rfl⟩ ks hvalue
  exact ⟨Statement.print hvalue, rfl⟩

theorem readAfter_reads :
    (readAfter start s h).Reads s fun ks st _ => Whole (.word .readWord :: ks) st := by
  refine (expectName_reads s).bind fun x s₁ _ => ?_
  refine (finish_reads ..).mono ?_
  rintro _ _ _ ⟨rfl, span, rfl⟩ _ rfl
  exact ⟨Statement.read, rfl⟩

theorem expressionStmt_reads : (expressionStmt s).Reads s fun ks st _ => Whole ks st := by
  refine (expression_reads s).bind fun value s₁ _ => ?_
  refine (finish_reads ..).mono ?_
  rintro _ _ _ ⟨rfl, span, rfl⟩ ks hvalue
  exact ⟨Statement.expression hvalue, rfl⟩

theorem condition_reads :
    (condition s h).Reads s fun ks e _ =>
      ∃ inner, ks = .mark .leftParen :: inner ++ [.mark .rightParen] ∧
        Expression inner e.shape := by
  refine (expect_reads .leftParen s).bind fun _ s₁ _ => ?_
  refine (expression_reads s₁).bind fun value s₂ _ => ?_
  refine (expect_reads .rightParen s₂).bind fun _ s₃ _ => .ok rfl rfl ?_
  rintro _ rfl ks hvalue _ rfl
  exact ⟨ks, by simp, hvalue⟩

end

/-- The tokens are a statement, and an `else` behind it belongs to no `if` in it. -/
def Complete (ks : List TokenKind) (st : Stmt) (s : State) : Prop :=
  Statement ks st.shape ∧ (st.endsOpen = true → s.peek ≠ .word .elseWord)

theorem Whole.complete {ks : List TokenKind} {st : Stmt} {s : State} (h : Whole ks st) :
    Complete ks st s :=
  ⟨h.1, fun hopen => by simp [h.2] at hopen⟩

mutual

theorem statement_reads (s : State) : (statement s).Reads s Complete := by
  by_cases hw : ∃ k, s.peek = .word k
  · obtain ⟨k, hk⟩ := hw
    have hlt := State.left_advance_lt_of_eq hk
    have hexpression := (expressionStmt_reads s).mono fun _ _ s' h => h.complete (s := s')
    rw [statement_word hk]
    cases k with
    | ifWord =>
        refine .after (reads_token hk rfl) ?_
        refine (condition_reads s.advance _).bind fun test s₁ hs₁ => ?_
        refine (statement_reads s₁).bind fun yes s₂ hs₂ => ?_
        by_cases he : s₂.peek = .word .elseWord
        · have hlt₂ := State.left_advance_lt_of_eq he
          rw [dif_pos he]
          refine .after (reads_token he rfl) ?_
          refine (statement_reads s₂.advance).bind fun no s₃ _ => .ok rfl rfl ?_
          rintro ks'' ⟨hno, hopen⟩ _ rfl ks' ⟨hyes, hclosed⟩ _ ⟨ks, rfl, htest⟩ _ rfl
          refine ⟨?_, fun h => hopen (by simpa [Stmt.endsOpen] using h)⟩
          -- the `else` was still there after the first branch, so nothing in it could take it
          have hnearest : yes.shape.endsOpen = false := by
            simpa using fun h => hclosed h he
          simpa [Stmt.bare] using Statement.ifElse htest hyes hnearest hno
        · rw [dif_neg he]
          refine .ok rfl rfl ?_
          rintro ks' ⟨hyes, -⟩ _ ⟨ks, rfl, htest⟩ _ rfl
          refine ⟨?_, fun _ => he⟩
          simpa [Stmt.bare] using Statement.ifThen htest hyes
    | whileWord =>
        refine .after (reads_token hk rfl) ?_
        refine (condition_reads s.advance _).bind fun test s₁ hs₁ => ?_
        refine (statement_reads s₁).bind fun body s₂ _ => .ok rfl rfl ?_
        rintro ks' ⟨hbody, hopen⟩ _ ⟨ks, rfl, htest⟩ _ rfl
        refine ⟨?_, fun h => hopen (by simpa [Stmt.endsOpen] using h)⟩
        simpa [Stmt.bare] using Statement.whileDo htest hbody
    | printWord =>
        refine .after (reads_token hk rfl) ((printedAfter_reads ..).mono ?_)
        rintro ks st s' h _ rfl
        exact h.complete
    | readWord =>
        refine .after (reads_token hk rfl) ((readAfter_reads ..).mono ?_)
        rintro ks st s' h _ rfl
        exact h.complete
    | letWord | forWord | returnWord | toWord => exact refuse_reads ..
    | andWord | elseWord | falseWord | nullWord | orWord | trueWord => exact hexpression
  · by_cases hb : s.peek = .mark .leftBrace
    · have hlt := State.left_advance_lt_of_eq hb
      have hd := (declarations_reads true [] s.advance (Nat.le_refl _)).1
      rw [statement_brace hb]
      refine .after (reads_token hb rfl) (.after hd ?_)
      refine (expect_reads .rightBrace _).bind fun _ s₂ _ => .ok rfl rfl ?_
      rintro _ rfl ks ⟨ss, hss, hinner⟩ _ rfl
      refine ⟨?_, fun h => by simp [Stmt.endsOpen] at h⟩
      simpa [Stmt.bare, hss] using Statement.block hinner
    · rw [statement_other (fun k h => hw ⟨k, h⟩) hb]
      exact (expressionStmt_reads s).mono fun _ _ _ h => h.complete
termination_by 3 * s.left

theorem declaration_reads (s : State) :
    (declaration s).Reads s fun ks st _ => Declaration ks st.shape := by
  by_cases h : s.peek = .word .letWord
  · rw [declaration_let h]
    refine .after (reads_token h rfl) ((declaredAfter_reads ..).mono ?_)
    rintro ks st _ hst _ rfl
    exact hst
  · rw [declaration_other h]
    exact (statement_reads s).mono fun _ _ _ hst => .statement hst.1
termination_by 3 * s.left + 1

theorem declarations_reads {n : Nat} (inBlock : Bool) (done : List Stmt) (s : State)
    (h : s.left ≤ n) :
    Reads (fun ks => ∃ ss, (declarations inBlock done s h).1.1 = done.reverse ++ ss ∧
        Declarations ks (ss.map Stmt.shape)) s (declarations inBlock done s h).1.2 ∧
      ends inBlock (declarations inBlock done s h).1.2.peek = true := by
  cases he : ends inBlock s.peek with
  | true =>
      rw [declarations_end he]
      exact ⟨⟨Nat.le_refl _, fun _ => ⟨[], rfl, [], by simp, .nil⟩⟩, he⟩
  | false =>
      have hd := declaration_reads s
      cases hx : declaration s with
      | ok st s₁ hs₁ =>
          rw [hx] at hd
          rw [declarations_ok he hx]
          obtain ⟨hrest, hend⟩ := declarations_reads inBlock (st :: done) s₁
            (Nat.le_of_lt (Nat.lt_of_lt_of_le hs₁ h))
          refine ⟨Reads.trans hd hrest ?_, hend⟩
          rintro ks ks' hst ⟨ss, hss, hrest⟩
          exact ⟨st :: ss, by simpa using hss, .cons hst hrest⟩
      | fail e s₁ hs₁ =>
          rw [hx] at hd
          have hlt := State.left_recover_lt (s := s₁.note e) hs₁ (left_pos_of_ends he)
          rw [declarations_fail he hx]
          obtain ⟨hrest, hend⟩ := declarations_reads inBlock done (s₁.note e).recover
            (Nat.le_of_lt (Nat.lt_of_lt_of_le hlt h))
          have hnoted : (s₁.note e).recover.faults.size = s₁.faults.size + 1 := by
            simp [State.note]
          have hmore := hrest.1
          have hkept : s.faults.size ≤ s₁.faults.size := hd
          -- the fault that was noted makes the second part of the statement empty
          exact ⟨⟨by omega, fun hsize => by omega⟩, hend⟩
termination_by 3 * s.left + 2

end

/-- A program that is given back is derived from the tokens in front of the end. -/
theorem derives_of_parse {tokens : List Token} {p : Program} (h : parse tokens = .ok p) :
    Derives (State.start tokens).kinds p.shape := by
  obtain ⟨⟨-, hreads⟩, hend⟩ := declarations_reads false [] (.start tokens) (Nat.le_refl _)
  generalize hd : (declarations false [] (.start tokens) _).1 = r at hreads hend
  obtain ⟨stmts, s⟩ := r
  rw [parse_eq hd] at h
  split at h
  · rename_i hempty
    obtain ⟨ks, hks, ss, hss, hinner⟩ := hreads (by rw [Array.isEmpty_iff.mp hempty]; rfl)
    have hnil : s.kinds = [] := State.kinds_eq_nil (by simpa [ends] using hend)
    cases h
    simp only [List.reverse_nil, List.nil_append] at hss
    rw [hks, hnil, List.append_nil, hss]
    exact .program hinner
  · cases h

end Dam.Parser
