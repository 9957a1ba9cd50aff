import Dam.Proofs.GrammarSoundness

/-!
# What is in the grammar is accepted

Every derivation is followed by the parser: started in front of a phrase, it succeeds
with a tree of the phrase's shape, notes no fault, and stops behind the phrase. The
proof goes along the derivation. What may come behind a phrase is a hypothesis: an
expression is not followed by an operator or an equals sign, and a statement that could
have an `else` is not followed by one.

The loop over operators is caught in the middle (`Level.parses`): in front of a phrase of
level `n`, the parser comes to the point where that phrase is the first operand, whatever
the lowest level is that it looks for.

With the other direction this gives the main statement, `parse_iff_derives`: the parser
accepts the grammar and nothing else, and the grammar has one tree for what it accepts.
-/

namespace Dam

namespace Grammar

/-! ## How phrases begin -/

/-- The token can begin an expression. -/
inductive StartsExpression : TokenKind → Prop
  | literal {k : TokenKind} {l : Literal} (constant : Denotes k l) : StartsExpression k
  | operator {k : TokenKind} {op : UnaryOp} (operator : Changes k op) : StartsExpression k
  | name {x : String} : StartsExpression (.name x)
  | paren : StartsExpression (.mark .leftParen)

theorem Unary.head {ks : List TokenKind} {e : Expr} (h : Unary ks e) :
    ∃ k ks', ks = k :: ks' ∧ StartsExpression k := by
  cases h with
  | operator ho _ => exact ⟨_, _, rfl, .operator ho⟩
  | primary h =>
      cases h with
      | literal hl => exact ⟨_, _, rfl, .literal hl⟩
      | name => exact ⟨_, _, rfl, .name⟩
      | grouping _ => exact ⟨_, _, rfl, .paren⟩

theorem Level.head : ∀ {n : Nat} {ks : List TokenKind} {e : Expr}, Level n ks e →
    ∃ k ks', ks = k :: ks' ∧ StartsExpression k
  | _, _, _, .join hl _ _ => by
      obtain ⟨k, ks', rfl, hk⟩ := hl.head
      exact ⟨k, _, rfl, hk⟩
  | _, _, _, .tighter h => h.head
  | _, _, _, .operand h => h.head

theorem Expression.head {ks : List TokenKind} {e : Expr} (h : Expression ks e) :
    ∃ k ks', ks = k :: ks' ∧ StartsExpression k := by
  cases h with
  | assign _ => exact ⟨_, _, rfl, .name⟩
  | level h => exact h.head

/-- The token can begin a declaration: it ends no list of them, and it is no `else`. -/
def Leads (k : TokenKind) : Prop :=
  k ≠ .word .elseWord ∧ ∀ inBlock, Parser.ends inBlock k = false

theorem StartsExpression.leads {k : TokenKind} (h : StartsExpression k) :
    k ≠ .word .letWord ∧ Leads k := by
  cases h with
  | literal h => cases h <;> simp [Leads, Parser.ends, TokenKind.isEnd]
  | operator h => cases h <;> simp [Leads, Parser.ends, TokenKind.isEnd]
  | name | paren => simp [Leads, Parser.ends, TokenKind.isEnd]

theorem Statement.head {ks : List TokenKind} {st : Stmt} (h : Statement ks st) :
    ∃ k ks', ks = k :: ks' ∧ k ≠ .word .letWord ∧ Leads k := by
  cases h with
  | expression h =>
      obtain ⟨k, ks', rfl, hk⟩ := h.head
      exact ⟨k, _, rfl, hk.leads⟩
  | print | read | ifThen | ifElse | whileDo | block =>
      exact ⟨_, _, rfl, by simp [Leads, Parser.ends, TokenKind.isEnd]⟩

theorem Declaration.head {ks : List TokenKind} {st : Stmt} (h : Declaration ks st) :
    ∃ k ks', ks = k :: ks' ∧ Leads k := by
  cases h with
  | statement h =>
      obtain ⟨k, ks', rfl, -, hk⟩ := h.head
      exact ⟨k, ks', rfl, hk⟩
  | initialized | empty => exact ⟨_, _, rfl, by simp [Leads, Parser.ends, TokenKind.isEnd]⟩

/-- The kind of the first token, if the tokens come in front of the end of input. -/
def next (ks : List TokenKind) : TokenKind := ks.headD .endOfInput

theorem Declarations.next_ne_else {ks rest : List TokenKind} {ss : List Stmt}
    (h : Declarations ks ss) {inBlock : Bool} (hend : Parser.ends inBlock (next rest) = true) :
    next (ks ++ rest) ≠ .word .elseWord := by
  cases h with
  | nil =>
      intro helse
      rw [List.nil_append] at helse
      simp [helse, Parser.ends, TokenKind.isEnd] at hend
  | cons hd _ =>
      obtain ⟨k, ks', rfl, hk⟩ := hd.head
      exact hk.1

end Grammar

/-! ## The parser in front of a phrase -/

namespace Parser

open Grammar

/-- The state stands in front of `rest`, with the faults of `s`. -/
def Leaves (s : State) (rest : List TokenKind) (s' : State) : Prop :=
  s'.kinds = rest ∧ s'.faults = s.faults

section

variable {s s₁ s₂ : State} {k : TokenKind} {rest ks ks' : List TokenKind}

theorem Leaves.trans (h : Leaves s rest s₁) (h' : Leaves s₁ ks s₂) : Leaves s ks s₂ :=
  ⟨h'.1, h'.2.trans h.2⟩

/-- The first token is the current one, and reading it leaves the others. -/
theorem peek_advance (h : s.kinds = k :: rest) : s.peek = k ∧ Leaves s rest s.advance := by
  cases hk : s.peek.isEnd with
  | true =>
      rw [State.kinds_eq_nil hk] at h
      cases h
  | false =>
      rw [State.kinds_eq_cons rfl hk] at h
      obtain ⟨hpeek, hkinds⟩ := List.cons.inj h
      exact ⟨hpeek, hkinds, State.faults_advance s⟩

theorem peek_of_head (h : s.kinds = ks ++ rest) (hks : ks = k :: ks') : s.peek = k := by
  subst hks
  exact (peek_advance h).1

theorem Leaves.peek (h : Leaves s rest s₁) : s₁.peek = next rest := by
  rw [State.peek_eq_head, h.1]
  rfl

theorem expect_succeeds {m : Mark} (h : s.kinds = .mark m :: rest) :
    (expect m s).Succeeds fun _ s' => Leaves s rest s' :=
  ⟨_, _, _, expect_mark (peek_advance h).1, (peek_advance h).2⟩

theorem expectName_succeeds {x : String} (h : s.kinds = .name x :: rest) :
    (expectName s).Succeeds fun y s' => y = x ∧ Leaves s rest s' :=
  ⟨_, _, _, expectName_name (peek_advance h).1, rfl, (peek_advance h).2⟩

end

end Parser

namespace Grammar

open Dam.Parser

/-- What may come behind an expression. -/
def Closes (rest : List TokenKind) : Prop :=
  Operator.ofToken? (next rest) = none ∧ next rest ≠ .mark .equal

theorem closes_semicolon (rest : List TokenKind) : Closes (.mark .semicolon :: rest) :=
  ⟨rfl, by simp [next]⟩

theorem closes_rightParen (rest : List TokenKind) : Closes (.mark .rightParen :: rest) :=
  ⟨rfl, by simp [next]⟩

/-- The outcome is a success with a tree of the given shape, in front of `rest`. -/
def Builds {α : Type} (shape : α → α) {n : Nat} (x : Outcome n α) (s : State) (a : α)
    (rest : List TokenKind) : Prop :=
  x.Succeeds fun v s' => shape v = a ∧ Leaves s rest s'

theorem Builds.after {α : Type} {shape : α → α} {n : Nat} {x : Outcome n α} {s s₁ : State} {a : α}
    {ks rest : List TokenKind} (hs : Leaves s ks s₁) (hx : Builds shape x s₁ a rest) :
    Builds shape x s a rest := by
  obtain ⟨v, s₂, h₂, hrun, hv, hleft⟩ := hx
  exact ⟨v, s₂, h₂, hrun, hv, hs.trans hleft⟩

theorem Primary.next_not_operator {ks : List TokenKind} {e : Expr} (h : Primary ks e)
    (rest : List TokenKind) : UnaryOp.ofToken? (next (ks ++ rest)) = none := by
  cases h with
  | literal hl => cases hl <;> rfl
  | name | grouping => rfl

/-- A name in front of an equals sign is read as a whole phrase of operators. -/
theorem operators_name {s : State} {x : String} {rest : List TokenKind}
    (h : s.kinds = .name x :: .mark .equal :: rest) :
    (operators 1 s).Succeeds fun v s' => v = .var (s.newNode s.here) x ∧ s' = s.advance.bump := by
  obtain ⟨hpeek, hadvance⟩ := peek_advance h
  have hequal : s.advance.peek = .mark .equal := hadvance.peek
  have hunary : unary s = primary s := unary_operand (by rw [hpeek]; rfl)
  have hnone : Operator.ofToken? s.advance.bump.peek = none := by
    change Operator.ofToken? s.advance.peek = none
    rw [hequal]
    rfl
  rw [operators, hunary, primary_name hpeek]
  exact ⟨_, _, _, operatorsAfter_none hnone, rfl, rfl⟩

mutual

theorem Expression.parses : ∀ {ks : List TokenKind} {e : Expr}, Expression ks e →
    ∀ (s : State) (rest : List TokenKind), s.kinds = ks ++ rest → Closes rest →
      Builds Expr.shape (expression s) s e rest
  | _, _, .assign hvalue, s, rest, hs, hrest => by
      have hname : Leaves s _ s.advance.bump := (peek_advance hs).2
      obtain ⟨hpeek, hequal⟩ := peek_advance hname.1
      rw [Builds, expression]
      -- the target is read as an expression first, and found to be a name afterwards
      refine (operators_name hs).bind ?_
      rintro _ s₁ _ ⟨rfl, rfl⟩
      rw [dif_pos hpeek]
      refine (hvalue.parses s.advance.bump.advance rest hequal.1 hrest).bind ?_
      rintro v s₂ _ ⟨hv, hleft⟩
      exact ⟨_, _, _, rfl, by simp [Expr.bare, hv], hname.trans (hequal.trans hleft)⟩
  | _, _, .level h, s, rest, hs, hrest => by
      obtain ⟨v, s₁, h₁, hrun, hv, hleft⟩ := h.parses s rest 1 hs (Nat.le_refl _)
        (by simp [hrest.1])
      have hnone : Operator.ofToken? s₁.peek = none := by rw [hleft.peek]; exact hrest.1
      have hequal : s₁.peek ≠ .mark .equal := by rw [hleft.peek]; exact hrest.2
      rw [Builds, expression, hrun, operatorsAfter_none hnone]
      exact ⟨v, s₁, h₁, dif_neg hequal, hv, hleft⟩

theorem Level.parses : ∀ {n : Nat} {ks : List TokenKind} {e : Expr}, Level n ks e →
    ∀ (s : State) (rest : List TokenKind) (min : Nat), s.kinds = ks ++ rest → min ≤ n →
      (∀ op, Operator.ofToken? (next rest) = some op → op.level ≤ n) →
      ∃ v s' h', operators min s = operatorsAfter min v s' h' ∧ v.shape = e ∧ Leaves s rest s'
  | n, _, _, @Level.join _ k op _ _ _ _ hl hop hr, s, rest, min, hs, hmin, hnext => by
      obtain ⟨htoken, hlevel⟩ := joins_iff.mp hop
      rw [List.append_assoc] at hs
      -- for the left operand, the operator itself is what comes next
      have hleftmost : ∀ op', Operator.ofToken? k = some op' → op'.level ≤ n := by
        intro op' ho'
        cases htoken.symm.trans ho'
        exact Nat.le_of_eq hlevel
      obtain ⟨v, s₁, h₁, hrun, hv, hleft⟩ := hl.parses s _ min hs hmin hleftmost
      obtain ⟨hpeek, hadvance⟩ := peek_advance hleft.1
      obtain ⟨w, s₂, h₂, hrun', hw, hleft'⟩ := hr.parses s₁.advance rest (n + 1) hadvance.1
        (Nat.le_refl _) fun op' ho' => Nat.le_succ_of_le (hnext op' ho')
      -- the right operand ends here: what comes next binds less tightly than it
      have hbelow : Below (n + 1) s₂ := fun op' ho' =>
        Nat.lt_succ_of_le (hnext op' (by rw [← hleft'.peek]; exact ho'))
      have ho : Operator.ofToken? s₁.peek = some op := by rw [hpeek]; exact htoken
      have hlt : s₂.bump.left < s.left := Nat.lt_trans h₂
        (Nat.lt_trans (State.left_advance_lt (Operator.isEnd_of_ofToken? ho)) h₁)
      refine ⟨op.join (s₂.newNode (v.span.merge w.span)) v w, s₂.bump, hlt, ?_, ?_,
        hleft.trans (hadvance.trans hleft')⟩
      · rw [hrun, operatorsAfter_join ho (by omega), hlevel, hrun', operatorsAfter_stop hbelow]
        rfl
      · simp [hv, hw]
  | _, _, _, .tighter h, s, rest, min, hs, hmin, hnext =>
      h.parses s rest min hs (by omega) fun op ho => Nat.le_succ_of_le (hnext op ho)
  | _, _, _, .operand h, s, rest, min, hs, hmin, hnext => by
      obtain ⟨v, s₁, h₁, hrun, hv, hleft⟩ := h.parses s rest hs
      refine ⟨v, s₁, h₁, ?_, hv, hleft⟩
      rw [operators, hrun]
      rfl

theorem Unary.parses : ∀ {ks : List TokenKind} {e : Expr}, Unary ks e →
    ∀ (s : State) (rest : List TokenKind), s.kinds = ks ++ rest →
      Builds Expr.shape (unary s) s e rest
  | _, _, .operator ho h, s, rest, hs => by
      obtain ⟨hpeek, hadvance⟩ := peek_advance hs
      rw [Builds, unary_operator (by rw [hpeek]; exact changes_iff.mp ho)]
      refine (h.parses s.advance rest hadvance.1).bind ?_
      rintro v s₁ _ ⟨hv, hleft⟩
      exact ⟨_, _, _, rfl, by simp [Expr.bare, hv], hadvance.trans hleft⟩
  | _, _, .primary h, s, rest, hs => by
      have hnone : UnaryOp.ofToken? s.peek = none := by
        rw [State.peek_eq_head, hs]
        exact h.next_not_operator rest
      rw [unary_operand hnone]
      exact h.parses s rest hs

theorem Primary.parses : ∀ {ks : List TokenKind} {e : Expr}, Primary ks e →
    ∀ (s : State) (rest : List TokenKind), s.kinds = ks ++ rest →
      Builds Expr.shape (primary s) s e rest
  | _, _, .literal hl, s, rest, hs => by
      obtain ⟨hpeek, hadvance⟩ := peek_advance hs
      rw [Builds, primary_literal (by rw [hpeek]; exact denotes_iff.mp hl)]
      exact ⟨_, _, _, rfl, rfl, hadvance⟩
  | _, _, .name, s, rest, hs => by
      obtain ⟨hpeek, hadvance⟩ := peek_advance hs
      rw [Builds, primary_name hpeek]
      exact ⟨_, _, _, rfl, rfl, hadvance⟩
  | _, _, .grouping h, s, rest, hs => by
      obtain ⟨hpeek, hadvance⟩ := peek_advance hs
      rw [Builds, primary_paren hpeek]
      refine (h.parses s.advance (.mark .rightParen :: rest) (by simpa using hadvance.1)
        (closes_rightParen rest)).bind ?_
      rintro v s₁ _ ⟨hv, hleft⟩
      refine (expect_succeeds hleft.1).bind ?_
      intro _ s₂ _ hleft'
      exact ⟨_, _, _, rfl, by simp [Expr.bare, hv], hadvance.trans (hleft.trans hleft')⟩

end

/-! ## Statements -/

section

variable {s : State} {n : Nat} {h : s.left < n} {start : Span} {rest ks : List TokenKind} {e : Expr}
  {x : String}

theorem finish_builds {f : Span → Stmt} {st : Stmt} (hs : s.kinds = .mark .semicolon :: rest)
    (hf : ∀ span, (f span).shape = st) : Builds Stmt.shape (finish start s h f) s st rest := by
  refine (expect_succeeds hs).bind ?_
  intro _ s₁ _ hleft
  exact ⟨_, _, _, rfl, hf _, hleft⟩

theorem Expression.condition_builds (he : Expression ks e)
    (hs : s.kinds = .mark .leftParen :: ks ++ .mark .rightParen :: rest) :
    Builds Expr.shape (condition s h) s e rest := by
  refine (expect_succeeds hs).bind ?_
  intro _ s₁ _ hleft₁
  refine (he.parses s₁ _ hleft₁.1 (closes_rightParen rest)).bind ?_
  rintro v s₂ _ ⟨hv, hleft₂⟩
  refine (expect_succeeds hleft₂.1).bind ?_
  intro _ s₃ _ hleft₃
  exact ⟨v, s₃, _, rfl, hv, hleft₁.trans (hleft₂.trans hleft₃)⟩

theorem Expression.expressionStmt_builds (he : Expression ks e)
    (hs : s.kinds = ks ++ .mark .semicolon :: rest) :
    Builds Stmt.shape (expressionStmt s) s (.expression .synthetic e) rest := by
  refine (he.parses s _ hs (closes_semicolon rest)).bind ?_
  rintro v s₁ _ ⟨hv, hleft⟩
  refine Builds.after hleft (finish_builds hleft.1 fun span => ?_)
  simp [Stmt.bare, hv]

theorem Expression.printedAfter_builds (he : Expression ks e)
    (hs : s.kinds = ks ++ .mark .semicolon :: rest) :
    Builds Stmt.shape (printedAfter start s h) s (.print .synthetic e) rest := by
  refine (he.parses s _ hs (closes_semicolon rest)).bind ?_
  rintro v s₁ _ ⟨hv, hleft⟩
  refine Builds.after hleft (finish_builds hleft.1 fun span => ?_)
  simp [Stmt.bare, hv]

theorem readAfter_builds (hs : s.kinds = .name x :: .mark .semicolon :: rest) :
    Builds Stmt.shape (readAfter start s h) s (.read .synthetic x) rest := by
  refine (expectName_succeeds hs).bind ?_
  rintro _ s₁ _ ⟨rfl, hleft⟩
  exact Builds.after hleft (finish_builds hleft.1 fun _ => rfl)

theorem Expression.declaredAfter_builds (he : Expression ks e)
    (hs : s.kinds = .name x :: .mark .equal :: (ks ++ .mark .semicolon :: rest)) :
    Builds Stmt.shape (declaredAfter start s h) s (.declare .synthetic x e) rest := by
  refine (expectName_succeeds hs).bind ?_
  rintro _ s₁ _ ⟨rfl, hleft⟩
  obtain ⟨hpeek, hadvance⟩ := peek_advance hleft.1
  rw [dif_pos hpeek]
  refine (he.parses s₁.advance _ hadvance.1 (closes_semicolon rest)).bind ?_
  rintro v s₂ _ ⟨hv, hleft₂⟩
  refine Builds.after (hleft.trans (hadvance.trans hleft₂)) (finish_builds hleft₂.1 fun span => ?_)
  simp [Stmt.bare, hv]

theorem declaredAfter_builds_empty (hs : s.kinds = .name x :: .mark .semicolon :: rest) :
    Builds Stmt.shape (declaredAfter start s h) s
      (.declare .synthetic x (.literal .blank (.string ""))) rest := by
  refine (expectName_succeeds hs).bind ?_
  rintro _ s₁ _ ⟨rfl, hleft⟩
  have hpeek : s₁.peek = .mark .semicolon := hleft.peek
  rw [dif_neg (by simp [hpeek])]
  have hbump : Leaves s _ s₁.bump := hleft
  exact Builds.after hbump (finish_builds hbump.1 fun _ => rfl)

/-- A statement that begins as an expression is one. -/
theorem StartsExpression.statement_eq {k : TokenKind} (hk : StartsExpression k) (hs : s.peek = k) :
    statement s = expressionStmt s := by
  cases hk with
  | literal hl =>
      cases hl with
      | yes | no | null => rw [statement_word hs]
      | number | string => exact statement_other (by simp [hs]) (by simp [hs])
  | operator ho => cases ho <;> exact statement_other (by simp [hs]) (by simp [hs])
  | name | paren => exact statement_other (by simp [hs]) (by simp [hs])

end

mutual

theorem Statement.parses : ∀ {ks : List TokenKind} {st : Stmt}, Statement ks st →
    ∀ (s : State) (rest : List TokenKind), s.kinds = ks ++ rest →
      (st.endsOpen = true → next rest ≠ .word .elseWord) →
      Builds Stmt.shape (statement s) s st rest
  | _, _, .print he, s, rest, hs, _ => by
      obtain ⟨hpeek, hadvance⟩ := peek_advance hs
      rw [statement_word hpeek]
      exact Builds.after hadvance (he.printedAfter_builds (by simpa using hadvance.1))
  | _, _, .read, s, rest, hs, _ => by
      obtain ⟨hpeek, hadvance⟩ := peek_advance hs
      rw [statement_word hpeek]
      exact Builds.after hadvance (readAfter_builds (by simpa using hadvance.1))
  | _, _, .ifThen he hyes, s, rest, hs, hopen => by
      obtain ⟨hpeek, hadvance⟩ := peek_advance hs
      rw [statement_word hpeek]
      refine Outcome.Succeeds.bind (he.condition_builds (by simpa using hadvance.1)) ?_
      rintro test s₁ _ ⟨htest, hleft₁⟩
      refine (hyes.parses s₁ rest hleft₁.1 fun _ => hopen rfl).bind ?_
      rintro yes s₂ _ ⟨hyes', hleft₂⟩
      have helse : s₂.peek ≠ .word .elseWord := by rw [hleft₂.peek]; exact hopen rfl
      rw [dif_neg helse]
      exact ⟨_, _, _, rfl, by simp [Stmt.bare, htest, hyes'],
        hadvance.trans (hleft₁.trans hleft₂)⟩
  | _, _, .ifElse he hyes hnearest hno, s, rest, hs, hopen => by
      obtain ⟨hpeek, hadvance⟩ := peek_advance hs
      rw [statement_word hpeek]
      refine Outcome.Succeeds.bind (he.condition_builds (by simpa using hadvance.1)) ?_
      rintro test s₁ _ ⟨htest, hleft₁⟩
      -- the first branch does not take the `else`, since nothing in it is open
      refine (hyes.parses s₁ _ hleft₁.1 fun h => by simp [hnearest] at h).bind ?_
      rintro yes s₂ _ ⟨hyes', hleft₂⟩
      obtain ⟨helse, hafter⟩ := peek_advance hleft₂.1
      rw [dif_pos helse]
      refine (hno.parses s₂.advance rest hafter.1 hopen).bind ?_
      rintro no s₃ _ ⟨hno', hleft₃⟩
      exact ⟨_, _, _, rfl, by simp [Stmt.bare, htest, hyes', hno'],
        hadvance.trans (hleft₁.trans (hleft₂.trans (hafter.trans hleft₃)))⟩
  | _, _, .whileDo he hbody, s, rest, hs, hopen => by
      obtain ⟨hpeek, hadvance⟩ := peek_advance hs
      rw [statement_word hpeek]
      refine Outcome.Succeeds.bind (he.condition_builds (by simpa using hadvance.1)) ?_
      rintro test s₁ _ ⟨htest, hleft₁⟩
      refine (hbody.parses s₁ rest hleft₁.1 hopen).bind ?_
      rintro body s₂ _ ⟨hbody', hleft₂⟩
      exact ⟨_, _, _, rfl, by simp [Stmt.bare, htest, hbody'],
        hadvance.trans (hleft₁.trans hleft₂)⟩
  | _, _, .block hinner, s, rest, hs, _ => by
      obtain ⟨hpeek, hadvance⟩ := peek_advance hs
      obtain ⟨vs, s₁, hrun, hvs, hleft₁⟩ := hinner.parses true [] s.advance (Nat.le_refl _)
        (.mark .rightBrace :: rest) (by simpa using hadvance.1) rfl
      rw [Builds, statement_brace hpeek]
      have hclose : Leaves s.advance (.mark .rightBrace :: rest)
          (declarations true [] s.advance (Nat.le_refl _)).1.2 := by
        rw [hrun]
        exact hleft₁
      refine (expect_succeeds hclose.1).bind ?_
      intro _ s₂ _ hleft₂
      exact ⟨_, _, _, rfl, by simp [Stmt.bare, hrun, hvs],
        hadvance.trans (hclose.trans hleft₂)⟩
  | _, _, .expression he, s, rest, hs, _ => by
      rw [List.append_assoc] at hs
      obtain ⟨k, ks', hks, hk⟩ := he.head
      have hpeek := peek_of_head hs hks
      rw [hk.statement_eq hpeek]
      exact he.expressionStmt_builds hs

theorem Declaration.parses : ∀ {ks : List TokenKind} {st : Stmt}, Declaration ks st →
    ∀ (s : State) (rest : List TokenKind), s.kinds = ks ++ rest →
      next rest ≠ .word .elseWord → Builds Stmt.shape (declaration s) s st rest
  | _, _, .initialized he, s, rest, hs, _ => by
      obtain ⟨hpeek, hadvance⟩ := peek_advance hs
      rw [declaration_let hpeek]
      exact Builds.after hadvance (he.declaredAfter_builds (by simpa using hadvance.1))
  | _, _, .empty, s, rest, hs, _ => by
      obtain ⟨hpeek, hadvance⟩ := peek_advance hs
      rw [declaration_let hpeek]
      exact Builds.after hadvance (declaredAfter_builds_empty (by simpa using hadvance.1))
  | _, _, .statement h, s, rest, hs, helse => by
      obtain ⟨k, ks', hks, hlet, -⟩ := h.head
      have hpeek := peek_of_head hs hks
      rw [declaration_other (by rw [hpeek]; exact hlet)]
      exact h.parses s rest hs fun _ => helse

theorem Declarations.parses : ∀ {ks : List TokenKind} {ss : List Stmt}, Declarations ks ss →
    ∀ {n : Nat} (inBlock : Bool) (done : List Stmt) (s : State) (h : s.left ≤ n)
      (rest : List TokenKind), s.kinds = ks ++ rest → ends inBlock (next rest) = true →
      ∃ vs s', (declarations inBlock done s h).1 = (done.reverse ++ vs, s') ∧
        vs.map Stmt.shape = ss ∧ Leaves s rest s'
  | _, _, .nil, _, inBlock, done, s, h, rest, hs, hend => by
      have hends : ends inBlock s.peek = true := by
        rw [State.peek_eq_head, hs]
        exact hend
      exact ⟨[], s, by rw [declarations_end hends, List.append_nil], rfl, hs, rfl⟩
  | _, _, .cons hd hds, _, inBlock, done, s, h, rest, hs, hend => by
      rw [List.append_assoc] at hs
      obtain ⟨v, s₁, h₁, hrun, hv, hleft₁⟩ := hd.parses s _ hs (hds.next_ne_else hend)
      obtain ⟨vs, s₂, hrun', hvs, hleft₂⟩ := hds.parses inBlock (v :: done) s₁
        (Nat.le_of_lt (Nat.lt_of_lt_of_le h₁ h)) rest hleft₁.1 hend
      obtain ⟨k, ks', hks, -, hends⟩ := hd.head
      have hpeek := peek_of_head hs hks
      refine ⟨v :: vs, s₂, ?_, by simp [hv, hvs], hleft₁.trans hleft₂⟩
      rw [declarations_ok (by rw [hpeek]; exact hends inBlock) hrun, hrun']
      simp

end

/-- What the tokens in front of the end derive is given back by the parser. -/
theorem Derives.parses {tokens : List Token} {q : Program}
    (h : Derives (State.start tokens).kinds q) : ∃ p, parse tokens = .ok p ∧ p.shape = q := by
  obtain ⟨hinner⟩ := h
  obtain ⟨vs, s, hrun, hvs, hleft⟩ := hinner.parses false [] (.start tokens) (Nat.le_refl _) []
    (by rw [List.append_nil]) rfl
  have hempty : s.faults.isEmpty = true := by
    rw [hleft.2]
    rfl
  refine ⟨⟨vs, (State.start tokens).here.merge s.behind⟩, ?_, ?_⟩
  · rw [parse_eq hrun, if_pos hempty]
    rfl
  · rw [← hvs]
    rfl

end Grammar

/-! ## The parser and the grammar -/

open Grammar

theorem Parser.State.kinds_start (tokens : List Token) :
    (start tokens).kinds = (tokens.map Token.kind).takeWhile fun k => k ≠ .endOfInput := by
  have hisEnd (k : TokenKind) : (!k.isEnd) = decide (k ≠ .endOfInput) := by
    cases k <;> simp [TokenKind.isEnd]
  rw [List.takeWhile_map]
  simp only [kinds, start, hisEnd]
  rfl

/--
**The parser accepts its grammar and builds the grammar's tree.** The tokens in front of
the first end of input derive a program if and only if the parser gives back a program of
that shape, and they derive no other.
-/
theorem parse_iff_derives (tokens : List Token) :
    (∀ q, (∃ p, parse tokens = .ok p ∧ p.shape = q) ↔
      Derives ((tokens.map Token.kind).takeWhile fun k => k ≠ .endOfInput) q) ∧
    ∀ q q', Derives ((tokens.map Token.kind).takeWhile fun k => k ≠ .endOfInput) q →
      Derives ((tokens.map Token.kind).takeWhile fun k => k ≠ .endOfInput) q' → q = q' := by
  rw [← Parser.State.kinds_start]
  refine ⟨fun q => ⟨?_, Derives.parses⟩, fun q q' hq hq' => ?_⟩
  · rintro ⟨p, hp, rfl⟩
    exact Parser.derives_of_parse hp
  · obtain ⟨p, hp, rfl⟩ := hq.parses
    obtain ⟨p', hp', rfl⟩ := hq'.parses
    cases hp.symm.trans hp'
    rfl

/-- The tokens of `if (a) if (b) a; else b;`, with nothing behind them. -/
def danglingElse : List Token :=
  [.word .ifWord, .mark .leftParen, .name "a", .mark .rightParen, .word .ifWord,
    .mark .leftParen, .name "b", .mark .rightParen, .name "a", .mark .semicolon, .word .elseWord,
    .name "b", .mark .semicolon].map fun k => ⟨k, .synthetic⟩

/-- The `else` belongs to the second `if`. -/
theorem parse_iff_derives_dangling_else :
    ∃ p, parse danglingElse = .ok p ∧
      p.shape = ⟨[.ifThen .synthetic (.var .blank "a")
        (.ifElse .synthetic (.var .blank "b") (.expression .synthetic (.var .blank "a"))
          (.expression .synthetic (.var .blank "b")))], .synthetic⟩ := by
  have hname (x : String) : Expression [.name x] (.var .blank x) :=
    .level ((Level.operand (.primary .name)).loosen (by decide))
  have hinner := Statement.ifElse (hname "b") (.expression (hname "a")) rfl
    (.expression (hname "b"))
  have houter := Statement.ifThen (hname "a") hinner
  exact ((parse_iff_derives danglingElse).1 _).mpr (.program (.cons (.statement houter) .nil))

end Dam
