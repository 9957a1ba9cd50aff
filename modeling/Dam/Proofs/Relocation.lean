import Dam.Proofs.ParserSteps

/-!
# Parsing and the places of tokens

The parser merges spans all the time and decides nothing by them. So if the tokens stood
elsewhere, it would give the same trees and faults, elsewhere: parsing commutes with every
change of places that merging commutes with (`parse_relocate`). Nor does it look behind the
first end of input, so that the two lists of tokens need to agree up to there only.

`State.Alike` is this agreement between the states of two runs, and `Mirrors` goes with it
through the parser function by function.
-/

namespace Dam

/-! ## Changing places -/

/-- A change of places that merging does not notice. -/
structure Relocation (σ : Span → Span) : Prop where
  synthetic : σ .synthetic = .synthetic
  merge (a b : Span) : σ (a.merge b) = (σ a).merge (σ b)

variable (σ : Span → Span)

/-- The token at its new place. -/
def Token.relocate (t : Token) : Token := ⟨t.kind, σ t.span⟩

/-- The fault at its new place. -/
def ParseError.relocate (e : ParseError) : ParseError := ⟨e.fault, σ e.span⟩

/-- The node at its new place. -/
def Node.relocate (n : Node) : Node := ⟨n.id, σ n.span⟩

/-- The expression with all its nodes at their new places. -/
def Expr.relocate : Expr → Expr
  | literal n v => literal (n.relocate σ) v
  | var n x => var (n.relocate σ) x
  | unary n op a => unary (n.relocate σ) op a.relocate
  | binary n l op r => binary (n.relocate σ) l.relocate op r.relocate
  | logical n l op r => logical (n.relocate σ) l.relocate op r.relocate
  | grouping n a => grouping (n.relocate σ) a.relocate
  | assign n x a => assign (n.relocate σ) x a.relocate

namespace Stmt

mutual

/-- The statement with all in it at new places. -/
def relocate : Stmt → Stmt
  | declare s x e => declare (σ s) x (e.relocate σ)
  | print s e => print (σ s) (e.relocate σ)
  | read s x => read (σ s) x
  | ifThen s e yes => ifThen (σ s) (e.relocate σ) yes.relocate
  | ifElse s e yes no => ifElse (σ s) (e.relocate σ) yes.relocate no.relocate
  | whileDo s e body => whileDo (σ s) (e.relocate σ) body.relocate
  | block s ss => block (σ s) (relocateAll ss)
  | expression s e => expression (σ s) (e.relocate σ)

/-- The statements with all in them at new places. -/
def relocateAll : List Stmt → List Stmt
  | [] => []
  | st :: sts => st.relocate :: relocateAll sts

end

theorem relocateAll_eq_map (ss : List Stmt) : relocateAll σ ss = ss.map (relocate σ) := by
  induction ss with
  | nil => rfl
  | cons st sts ih => rw [relocateAll, ih, List.map_cons]

end Stmt

/-- The program with all in it at new places. -/
def Program.relocate (p : Program) : Program := ⟨p.stmts.map (Stmt.relocate σ), σ p.span⟩

variable {σ}

theorem Expr.span_relocate (e : Expr) : (e.relocate σ).span = σ e.span := by
  cases e <;> rfl

theorem Operator.relocate_join (op : Operator) (node : Node) (left right : Expr) :
    (op.join node left right).relocate σ =
      op.join (node.relocate σ) (left.relocate σ) (right.relocate σ) := by
  cases op <;> rfl

/-! ## The tokens that count -/

/-- The tokens in front of the first end of input. -/
def front (tokens : List Token) : List Token := tokens.takeWhile fun t => !t.kind.isEnd

/-- The place of the first end of input, synthetic if there is none. -/
def endPlace (tokens : List Token) : Span :=
  ((tokens.find? fun t => t.kind.isEnd).map Token.span).getD .synthetic

theorem TokenKind.eq_of_isEnd {k : TokenKind} (h : k.isEnd = true) : k = .endOfInput := by
  cases k with
  | endOfInput => rfl
  | _ => cases h

namespace Parser

namespace State

variable (s : State)

theorem peek_eq_front : s.peek = ((front s.rest).head?.map Token.kind).getD .endOfInput := by
  obtain ⟨_ | ⟨t, ts⟩, _, _, _⟩ := s
  · rfl
  · by_cases h : t.kind.isEnd = true
    · simpa [peek, front, h] using TokenKind.eq_of_isEnd h
    · simp [peek, front, h]

theorem here_eq_front : s.here = ((front s.rest).head?.map Token.span).getD (endPlace s.rest) := by
  obtain ⟨_ | ⟨t, ts⟩, _, _, _⟩ := s
  · rfl
  · by_cases h : t.kind.isEnd = true <;> simp [here, front, endPlace, h]

theorem front_advance : front s.advance.rest = (front s.rest).tail := by
  obtain ⟨_ | ⟨t, ts⟩, _, _, _⟩ := s
  · rfl
  · by_cases h : t.kind.isEnd = true <;> simp [advance, front, h]

theorem endPlace_advance : endPlace s.advance.rest = endPlace s.rest := by
  obtain ⟨_ | ⟨t, ts⟩, _, _, _⟩ := s
  · rfl
  · by_cases h : t.kind.isEnd = true <;> simp [advance, endPlace, h]

theorem last_advance : s.advance.last = (front s.rest).head?.or s.last := by
  obtain ⟨_ | ⟨t, ts⟩, _, _, _⟩ := s
  · rfl
  · by_cases h : t.kind.isEnd = true <;> simp [advance, front, h]

@[simp] theorem nextId_advance : s.advance.nextId = s.nextId := by
  unfold advance
  split
  · rfl
  · split <;> rfl

/-! ## States -/

/-- The second state is the first one at new places, as far as the first end of input. -/
structure Alike (σ : Span → Span) (s t : State) : Prop where
  front : front t.rest = (Dam.front s.rest).map (Token.relocate σ)
  endPlace : endPlace t.rest = σ (Dam.endPlace s.rest)
  last : t.last = s.last.map (Token.relocate σ)
  nextId : t.nextId = s.nextId
  faults : t.faults = s.faults.map (ParseError.relocate σ)

namespace Alike

variable {s} {t : State}

theorem peek (h : Alike σ s t) : t.peek = s.peek := by
  rw [peek_eq_front, peek_eq_front, h.front, List.head?_map, Option.map_map]
  rfl

theorem here (h : Alike σ s t) : t.here = σ s.here := by
  rw [here_eq_front, here_eq_front, h.front, h.endPlace, List.head?_map]
  cases (Dam.front s.rest).head? <;> rfl

theorem behind (hσ : Relocation σ) (h : Alike σ s t) : t.behind = σ s.behind := by
  unfold State.behind
  rw [h.last]
  cases s.last with
  | none => exact hσ.synthetic.symm
  | some u => rfl

theorem advance (h : Alike σ s t) : Alike σ s.advance t.advance where
  front := by rw [front_advance, front_advance, h.front, List.map_tail]
  endPlace := by rw [endPlace_advance, endPlace_advance, h.endPlace]
  last := by
    rw [last_advance, last_advance, h.front, h.last, List.head?_map]
    cases (Dam.front s.rest).head? <;> rfl
  nextId := by rw [nextId_advance, nextId_advance, h.nextId]
  faults := by rw [faults_advance, faults_advance, h.faults]

theorem bump (h : Alike σ s t) : Alike σ s.bump t.bump :=
  { h with nextId := congrArg (· + 1) h.nextId }

theorem newNode (h : Alike σ s t) (span : Span) :
    t.newNode (σ span) = (s.newNode span).relocate σ := by
  rw [State.newNode, h.nextId]
  rfl

theorem note (h : Alike σ s t) (e : ParseError) :
    Alike σ (s.note e) (t.note (e.relocate σ)) := by
  refine { h with faults := ?_ }
  rw [State.note, State.note, h.faults, Array.map_push]

theorem resume (h : Alike σ s t) : Alike σ s.resume t.resume := by
  have hkind {s t : State} (h : Alike σ s t) :
      t.last.map Token.kind = s.last.map Token.kind := by
    rw [h.last, Option.map_map]
    rfl
  fun_induction State.resume s generalizing t with
  | case1 s hend =>
      rw [State.resume.eq_def t, dif_pos (by rwa [h.peek])]
      exact h
  | case2 s hend hlast =>
      rw [State.resume.eq_def t, dif_neg (by rwa [h.peek]), if_pos (by rwa [hkind h])]
      exact h
  | case3 s hend hlast hstart =>
      rw [State.resume.eq_def t, dif_neg (by rwa [h.peek]), if_neg (by rwa [hkind h]),
        if_pos (by rwa [h.peek])]
      exact h
  | case4 s hend hlast hstart ih =>
      rw [State.resume.eq_def t, dif_neg (by rwa [h.peek]), if_neg (by rwa [hkind h]),
        if_neg (by rwa [h.peek])]
      exact ih h.advance

theorem recover (h : Alike σ s t) : Alike σ s.recover t.recover := by
  unfold State.recover
  rw [h.peek]
  split
  · exact h
  · exact h.advance.resume

end Alike

end State

/-! ## Outcomes -/

/-- The second outcome is the first one at new places; `g` moves the value. -/
inductive Mirrors (σ : Span → Span) {α : Type} (g : α → α) {m n : Nat} :
    Outcome m α → Outcome n α → Prop
  | ok {a b : α} {s t : State} {h : s.left < m} {h' : t.left < n} (hb : b = g a)
      (ht : s.Alike σ t) : Mirrors σ g (.ok a s h) (.ok b t h')
  | fail {e e' : ParseError} {s t : State} {h : s.left ≤ m} {h' : t.left ≤ n}
      (he : e' = e.relocate σ) (ht : s.Alike σ t) : Mirrors σ g (.fail e s h) (.fail e' t h')

section

variable {α β : Type} {g : α → α} {g' : β → β} {m n m' n' : Nat}

theorem Mirrors.bind {x : Outcome m α} {y : Outcome m' α} {h : m ≤ n} {h' : m' ≤ n'}
    {f : α → (s : State) → s.left < m → Outcome n β}
    {f' : α → (s : State) → s.left < m' → Outcome n' β} (hx : Mirrors σ g x y)
    (hf : ∀ a s t hs ht, s.Alike σ t → Mirrors σ g' (f a s hs) (f' (g a) t ht)) :
    Mirrors σ g' (x.bind h f) (y.bind h' f') := by
  cases hx with
  | ok hb ht =>
      subst hb
      exact hf _ _ _ _ _ ht
  | fail he ht => exact .fail he ht

end

/-! ## Tokens -/

section

variable {s t : State}

theorem refuse_mirrors {α : Type} {g : α → α} (fault : ParseFault) (ht : s.Alike σ t) :
    Mirrors σ g (refuse fault s) (refuse fault t) :=
  .fail (by rw [ht.here]; rfl) ht

theorem expect_mirrors (m : Mark) (ht : s.Alike σ t) :
    Mirrors σ id (expect m s) (expect m t) := by
  by_cases h : s.peek = .mark m
  · rw [expect_mark h, expect_mark (ht.peek.trans h)]
    exact .ok rfl ht.advance
  · rw [expect_other h, expect_other (ht.peek ▸ h), ht.peek]
    exact refuse_mirrors _ ht

theorem expectName_mirrors (ht : s.Alike σ t) :
    Mirrors σ id (expectName s) (expectName t) := by
  by_cases h : ∃ x, s.peek = .name x
  · obtain ⟨x, hx⟩ := h
    rw [expectName_name hx, expectName_name (ht.peek.trans hx)]
    exact .ok rfl ht.advance
  · have h' : ∀ x, s.peek ≠ .name x := fun x hx => h ⟨x, hx⟩
    rw [expectName_other h', expectName_other (ht.peek ▸ h'), ht.peek]
    exact refuse_mirrors _ ht

end

/-- `f` and `f'` make the same statement, at different places. -/
theorem finish_mirrors (hσ : Relocation σ) {s t : State} {m n : Nat} {h : s.left < m}
    {h' : t.left < n} {start : Span} {f f' : Span → Stmt} (ht : s.Alike σ t)
    (hf : ∀ span, f' (σ span) = (f span).relocate σ) :
    Mirrors σ (Stmt.relocate σ) (finish start s h f) (finish (σ start) t h' f') := by
  refine (expect_mirrors .semicolon ht).bind fun _ s1 t1 _ _ ht1 => .ok ?_ ht1
  rw [ht1.behind hσ, ← hσ.merge]
  exact hf _

/-! ## Expressions -/

-- Both runs take the same branches: what is asked about the current token is its kind, and
-- about the target of an assignment whether it is a name.
mutual

theorem expression_mirrors (hσ : Relocation σ) (s t : State) (ht : s.Alike σ t) :
    Mirrors σ (Expr.relocate σ) (expression s) (expression t) := by
  rw [expression, expression]
  refine (operators_mirrors hσ 1 s t ht).bind fun target s1 t1 hs1 _ ht1 => ?_
  by_cases he : s1.peek = .mark .equal
  · have hlt : s1.advance.left < s.left := Nat.lt_trans (State.left_advance_lt_of_eq he) hs1
    rw [dif_pos he, dif_pos (ht1.peek.trans he)]
    refine (expression_mirrors hσ s1.advance t1.advance ht1.advance).bind
      fun value s2 t2 _ _ ht2 => ?_
    cases target with
    | var node x =>
        refine .ok ?_ ht2.bump
        rw [Expr.span_relocate, Expr.relocate, ← ht2.newNode, hσ.merge]
        rfl
    | literal | unary | binary | logical | grouping | assign =>
        exact .fail (by rw [ht1.here]; rfl) ht2
  · rw [dif_neg he, dif_neg (ht1.peek ▸ he)]
    exact .ok rfl ht1
termination_by 4 * s.left + 3

theorem operators_mirrors (hσ : Relocation σ) (min : Nat) (s t : State) (ht : s.Alike σ t) :
    Mirrors σ (Expr.relocate σ) (operators min s) (operators min t) := by
  rw [operators, operators]
  exact (unary_mirrors hσ s t ht).bind fun first s1 t1 hs1 ht1 h1 =>
    operatorsAfter_mirrors hσ min first s1 t1 hs1 ht1 h1
termination_by 4 * s.left + 2

theorem operatorsAfter_mirrors (hσ : Relocation σ) {m n : Nat} (min : Nat) (first : Expr)
    (s t : State) (hs : s.left < m) (hn : t.left < n) (ht : s.Alike σ t) :
    Mirrors σ (Expr.relocate σ) (operatorsAfter min first s hs)
      (operatorsAfter min (first.relocate σ) t hn) := by
  cases ho : Operator.ofToken? s.peek with
  | none =>
      rw [operatorsAfter_none ho, operatorsAfter_none (ht.peek ▸ ho)]
      exact .ok rfl ht
  | some op =>
      by_cases hmin : min ≤ op.level
      · have hlt := State.left_advance_lt (Operator.isEnd_of_ofToken? ho)
        rw [operatorsAfter_join ho hmin, operatorsAfter_join (ht.peek ▸ ho) hmin]
        refine (operators_mirrors hσ (op.level + 1) s.advance t.advance ht.advance).bind
          fun second s1 t1 hs1 _ ht1 => ?_
        rw [Expr.span_relocate, Expr.span_relocate, ← hσ.merge, ht1.newNode,
          ← Operator.relocate_join]
        exact operatorsAfter_mirrors hσ min _ s1.bump t1.bump _ _ ht1.bump
      · rw [operatorsAfter_low ho (by omega), operatorsAfter_low (ht.peek ▸ ho) (by omega)]
        exact .ok rfl ht
termination_by 4 * s.left

theorem unary_mirrors (hσ : Relocation σ) (s t : State) (ht : s.Alike σ t) :
    Mirrors σ (Expr.relocate σ) (unary s) (unary t) := by
  cases ho : UnaryOp.ofToken? s.peek with
  | none =>
      rw [unary_operand ho, unary_operand (ht.peek ▸ ho)]
      exact primary_mirrors hσ s t ht
  | some op =>
      have hlt := State.left_advance_lt (UnaryOp.isEnd_of_ofToken? ho)
      rw [unary_operator ho, unary_operator (s := t) (ht.peek ▸ ho)]
      refine (unary_mirrors hσ s.advance t.advance ht.advance).bind
        fun operand s1 t1 _ _ ht1 => .ok ?_ ht1.bump
      rw [ht.here, Expr.span_relocate, ← hσ.merge, ht1.newNode]
      rfl
termination_by 4 * s.left + 1

theorem primary_mirrors (hσ : Relocation σ) (s t : State) (ht : s.Alike σ t) :
    Mirrors σ (Expr.relocate σ) (primary s) (primary t) := by
  have hnode : t.newNode t.here = (s.newNode s.here).relocate σ := by rw [ht.here, ht.newNode]
  cases hl : Literal.ofToken? s.peek with
  | some l =>
      rw [primary_literal hl, primary_literal (ht.peek ▸ hl), hnode]
      exact .ok rfl ht.advance.bump
  | none =>
      by_cases hx : ∃ x, s.peek = .name x
      · obtain ⟨x, hx⟩ := hx
        rw [primary_name hx, primary_name (ht.peek.trans hx), hnode]
        exact .ok rfl ht.advance.bump
      · have hx' : ∀ x, s.peek ≠ .name x := fun x h => hx ⟨x, h⟩
        by_cases hp : s.peek = .mark .leftParen
        · have hlt := State.left_advance_lt_of_eq hp
          rw [primary_paren hp, primary_paren (ht.peek.trans hp)]
          refine (expression_mirrors hσ s.advance t.advance ht.advance).bind
            fun inner s1 t1 _ _ ht1 => ?_
          refine (expect_mirrors .rightParen ht1).bind fun _ s2 t2 _ _ ht2 => .ok ?_ ht2.bump
          rw [ht.here, ht2.behind hσ, ← hσ.merge, ht2.newNode]
          rfl
        · rw [primary_other hl hx' hp,
            primary_other (ht.peek ▸ hl) (ht.peek ▸ hx') (ht.peek ▸ hp), ht.peek]
          exact refuse_mirrors _ ht
termination_by 4 * s.left

end

/-! ## Statements -/

section

variable (hσ : Relocation σ) {s t : State} {m n : Nat} {start : Span} {hs : s.left < m}
  {hn : t.left < n}
include hσ

theorem declaredAfter_mirrors (ht : s.Alike σ t) :
    Mirrors σ (Stmt.relocate σ) (declaredAfter start s hs) (declaredAfter (σ start) t hn) := by
  refine (expectName_mirrors ht).bind fun x s1 t1 _ _ ht1 => ?_
  by_cases he : s1.peek = .mark .equal
  · rw [dif_pos he, dif_pos (ht1.peek.trans he)]
    refine (expression_mirrors hσ s1.advance t1.advance ht1.advance).bind
      fun value s2 t2 _ _ ht2 => ?_
    exact finish_mirrors hσ ht2 fun _ => rfl
  · rw [dif_neg he, dif_neg (ht1.peek ▸ he), ht.here, ht1.newNode]
    exact finish_mirrors hσ ht1.bump fun _ => rfl

theorem printedAfter_mirrors (ht : s.Alike σ t) :
    Mirrors σ (Stmt.relocate σ) (printedAfter start s hs) (printedAfter (σ start) t hn) :=
  (expression_mirrors hσ s t ht).bind fun _ _ _ _ _ ht1 => finish_mirrors hσ ht1 fun _ => rfl

theorem readAfter_mirrors (ht : s.Alike σ t) :
    Mirrors σ (Stmt.relocate σ) (readAfter start s hs) (readAfter (σ start) t hn) :=
  (expectName_mirrors ht).bind fun _ _ _ _ _ ht1 => finish_mirrors hσ ht1 fun _ => rfl

theorem expressionStmt_mirrors (ht : s.Alike σ t) :
    Mirrors σ (Stmt.relocate σ) (expressionStmt s) (expressionStmt t) := by
  refine (expression_mirrors hσ s t ht).bind fun _ s1 t1 _ _ ht1 => ?_
  rw [ht.here]
  exact finish_mirrors hσ ht1 fun _ => rfl

theorem condition_mirrors (ht : s.Alike σ t) :
    Mirrors σ (Expr.relocate σ) (condition s hs) (condition t hn) :=
  (expect_mirrors .leftParen ht).bind fun _ s1 t1 _ _ ht1 =>
    (expression_mirrors hσ s1 t1 ht1).bind fun _ _ _ _ _ ht2 =>
      (expect_mirrors .rightParen ht2).bind fun _ _ _ _ _ ht3 => .ok rfl ht3

end

mutual

theorem statement_mirrors (hσ : Relocation σ) (s t : State) (ht : s.Alike σ t) :
    Mirrors σ (Stmt.relocate σ) (statement s) (statement t) := by
  by_cases hw : ∃ k, s.peek = .word k
  · obtain ⟨k, hk⟩ := hw
    rw [statement_word hk, statement_word (ht.peek.trans hk), ht.here]
    cases k with
    | ifWord =>
        refine (condition_mirrors hσ ht.advance).bind fun test s1 t1 hs1 _ ht1 => ?_
        refine (statement_mirrors hσ s1 t1 ht1).bind fun yes s2 t2 hs2 _ ht2 => ?_
        by_cases he : s2.peek = .word .elseWord
        · have hlt := State.left_advance_lt_of_eq he
          rw [dif_pos he, dif_pos (ht2.peek.trans he)]
          refine (statement_mirrors hσ s2.advance t2.advance ht2.advance).bind
            fun no s3 t3 _ _ ht3 => .ok ?_ ht3
          rw [ht3.behind hσ, ← hσ.merge]
          rfl
        · rw [dif_neg he, dif_neg (ht2.peek ▸ he)]
          refine .ok ?_ ht2
          rw [ht2.behind hσ, ← hσ.merge]
          rfl
    | whileWord =>
        refine (condition_mirrors hσ ht.advance).bind fun test s1 t1 hs1 _ ht1 => ?_
        refine (statement_mirrors hσ s1 t1 ht1).bind fun body s2 t2 _ _ ht2 => .ok ?_ ht2
        rw [ht2.behind hσ, ← hσ.merge]
        rfl
    | printWord => exact printedAfter_mirrors hσ ht.advance
    | readWord => exact readAfter_mirrors hσ ht.advance
    | letWord => exact refuse_mirrors _ ht
    | forWord | returnWord | toWord => exact refuse_mirrors _ ht
    | andWord | elseWord | falseWord | nullWord | orWord | trueWord =>
        exact expressionStmt_mirrors hσ ht
  · have hw' : ∀ k, s.peek ≠ .word k := fun k h => hw ⟨k, h⟩
    by_cases hb : s.peek = .mark .leftBrace
    · have hlt := State.left_advance_lt_of_eq hb
      rw [statement_brace hb, statement_brace (ht.peek.trans hb), ht.here]
      obtain ⟨hstmts, hd⟩ := declarations_mirrors hσ true [] s.advance t.advance (Nat.le_refl _)
        (Nat.le_refl _) ht.advance
      refine (expect_mirrors .rightBrace hd).bind fun _ s2 t2 _ _ ht2 => .ok ?_ ht2
      rw [ht2.behind hσ, ← hσ.merge, Stmt.relocate, Stmt.relocateAll_eq_map]
      exact congrArg _ hstmts
    · rw [statement_other hw' hb, statement_other (ht.peek ▸ hw') (ht.peek ▸ hb)]
      exact expressionStmt_mirrors hσ ht
termination_by 3 * s.left

theorem declaration_mirrors (hσ : Relocation σ) (s t : State) (ht : s.Alike σ t) :
    Mirrors σ (Stmt.relocate σ) (declaration s) (declaration t) := by
  by_cases h : s.peek = .word .letWord
  · rw [declaration_let h, declaration_let (ht.peek.trans h), ht.here]
    exact declaredAfter_mirrors hσ ht.advance
  · rw [declaration_other h, declaration_other (ht.peek ▸ h)]
    exact statement_mirrors hσ s t ht
termination_by 3 * s.left + 1

theorem declarations_mirrors (hσ : Relocation σ) {m n : Nat} (inBlock : Bool)
    (done : List Stmt) (s t : State) (hs : s.left ≤ m) (hn : t.left ≤ n) (ht : s.Alike σ t) :
    (declarations inBlock (done.map (Stmt.relocate σ)) t hn).1.1 =
        (declarations inBlock done s hs).1.1.map (Stmt.relocate σ) ∧
      (declarations inBlock done s hs).1.2.Alike σ
        (declarations inBlock (done.map (Stmt.relocate σ)) t hn).1.2 := by
  cases he : ends inBlock s.peek with
  | true =>
      rw [declarations_end he, declarations_end (ht.peek ▸ he)]
      exact ⟨List.map_reverse.symm, ht⟩
  | false =>
      have hd := declaration_mirrors hσ s t ht
      generalize hx : declaration s = x at hd
      generalize hy : declaration t = y at hd
      cases hd with
      | ok hb ht1 =>
          rename_i stmt _ s1 t1 hs1 _
          subst hb
          rw [declarations_ok he hx, declarations_ok (ht.peek ▸ he) hy]
          exact declarations_mirrors hσ inBlock (stmt :: done) s1 t1 _ _ ht1
      | fail hb ht1 =>
          rename_i e _ s1 t1 hs1 _
          subst hb
          have hlt := State.left_recover_lt (s := s1.note e) hs1 (left_pos_of_ends he)
          rw [declarations_fail he hx, declarations_fail (ht.peek ▸ he) hy]
          exact declarations_mirrors hσ inBlock done (s1.note e).recover
            (t1.note (e.relocate σ)).recover _ _ (ht1.note e).recover
termination_by 3 * s.left + 2

end

/-! ## Whole inputs -/

theorem State.alike_start {tokens tokens' : List Token}
    (hfront : front tokens' = (front tokens).map (Token.relocate σ))
    (hend : endPlace tokens' = σ (endPlace tokens)) :
    (State.start tokens).Alike σ (.start tokens') where
  front := hfront
  endPlace := hend
  last := rfl
  nextId := rfl
  faults := by simp [State.start]

end Parser

/-- **Parsing commutes with a change of places**, and sees the tokens in front of the first end
of input and the place of that end. -/
theorem parse_relocate (hσ : Relocation σ) {tokens tokens' : List Token}
    (hfront : front tokens' = (front tokens).map (Token.relocate σ))
    (hend : endPlace tokens' = σ (endPlace tokens)) :
    parse tokens' =
      ((parse tokens).map (Program.relocate σ)).mapError (List.map (ParseError.relocate σ)) := by
  have hstart := Parser.State.alike_start hfront hend
  obtain ⟨hstmts, hd⟩ := Parser.declarations_mirrors hσ false [] _ _ (Nat.le_refl _)
    (Nat.le_refl _) hstart
  rw [List.map_nil] at hstmts hd
  have hempty (faults : Array ParseError) :
      (faults.map (ParseError.relocate σ)).isEmpty = faults.isEmpty := by
    simp [Array.isEmpty]
  rw [Parser.parse_eq rfl, Parser.parse_eq rfl, hstmts, hd.faults, hd.behind hσ, hstart.here,
    ← hσ.merge, hempty]
  split
  · rfl
  · exact congrArg Except.error Array.toList_map

end Dam
