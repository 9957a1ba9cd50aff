import Dam.Proofs.Grammar
import Dam.Proofs.Spans

/-!
# Trees over rows of tokens

A tree that was parsed lies over the row of tokens it was parsed from: the tree as a whole
over all of them, and the parts of a node over stretches of its tokens, one behind the other.
`Spread` is this relation. It asks two things of a node: that its span reaches from the first
of its tokens to the last one, and, if it is an expression, that its tokens are an expression
by themselves. One node is excused from the second, the value that a declaration without one
is given; there are no tokens for it, and it stands at the name.
-/

namespace Dam

/-! ## Nodes -/

/-- A node of a tree. -/
inductive Tree where
  | expr (e : Expr)
  | stmt (st : Stmt)

namespace Tree

/-- The place of a node. -/
def span : Tree → Span
  | expr e => e.span
  | stmt st => st.span

/-- The nodes right below a node, in the order they are written. -/
def children : Tree → List Tree
  | expr (.literal ..) | expr (.var ..) | stmt (.read ..) => []
  | expr (.unary _ _ a) | expr (.grouping _ a) | expr (.assign _ _ a) => [expr a]
  | expr (.binary _ l _ r) | expr (.logical _ l _ r) => [expr l, expr r]
  | stmt (.declare _ _ e) | stmt (.print _ e) | stmt (.expression _ e) => [expr e]
  | stmt (.ifThen _ e yes) => [expr e, stmt yes]
  | stmt (.ifElse _ e yes no) => [expr e, stmt yes, stmt no]
  | stmt (.whileDo _ e body) => [expr e, stmt body]
  | stmt (.block _ ss) => ss.map stmt

end Tree

/-! ## Rows of tokens -/

/-- Tokens that stand one behind the other in a text. -/
structure Row (ts : List Token) : Prop where
  ordered : ts.Pairwise fun t u => t.span.stop ≤ u.span.start
  proper : ∀ t ∈ ts, t.span.line ≠ 0 ∧ t.span.start ≤ t.span.stop

/-- The span reaches from the first of the tokens to the last one. -/
def Bounds (ts : List Token) (span : Span) : Prop :=
  ∃ first last, ts.head? = some first ∧ ts.getLast? = some last ∧
    span = ⟨first.span.start, last.span.stop, first.span.line, first.span.col⟩

theorem Row.of_append {ts us : List Token} (h : Row (ts ++ us)) : Row ts ∧ Row us := by
  obtain ⟨hts, hus, -⟩ := List.pairwise_append.mp h.ordered
  have hall := List.forall_mem_append.mp h.proper
  exact ⟨⟨hts, hall.1⟩, ⟨hus, hall.2⟩⟩

/-- The tokens of a text stand one behind the other. -/
theorem row_of_lex {source : String} {tokens : List Token} (h : lex source = .ok tokens) :
    Row tokens := by
  have htiles := tiles_of_lex h
  refine ⟨htiles.ordered, fun t ht => ?_⟩
  have hwhole : source = "" ++ source := by simp
  obtain ⟨before, lexeme, _, _, hspan, _⟩ := htiles.stands hwhole t ht
  rw [hspan]
  simp only [Span.over, String.utf8ByteSize_append]
  omega

theorem exists_isEnd_of_lex {source : String} {tokens : List Token}
    (h : lex source = .ok tokens) : ∃ t ∈ tokens, t.kind.isEnd = true := by
  obtain ⟨body, rfl, -⟩ := (tiles_of_lex h).ends
  exact ⟨_, List.mem_append_right _ (List.mem_singleton_self _), rfl⟩

theorem bounds_singleton (t : Token) : Bounds [t] t.span := ⟨t, t, rfl, rfl, rfl⟩

/-- Two spans in the order of the text: the merge begins with the one and ends with the other. -/
theorem Span.merge_eq {a b : Span} (ha : a.line ≠ 0) (hb : b.line ≠ 0) (hstart : a.start ≤ b.start)
    (hstop : a.stop ≤ b.stop) : a.merge b = ⟨a.start, b.stop, a.line, a.col⟩ := by
  have ha' : a.isSynthetic = false := beq_eq_false_iff_ne.mpr ha
  have hb' : b.isSynthetic = false := beq_eq_false_iff_ne.mpr hb
  simp only [merge, ha', hb', Bool.false_eq_true, if_false, if_pos hstart,
    Nat.min_eq_left hstart, Nat.max_eq_right hstop]

/-- The merge of spans over two stretches reaches from the first stretch to the second one. -/
theorem Bounds.merge {ts us : List Token} {a b : Span} (ha : Bounds ts a) (hb : Bounds us b)
    (mid : List Token) (h : Row (ts ++ (mid ++ us))) : Bounds (ts ++ (mid ++ us)) (a.merge b) := by
  obtain ⟨t, t', ht, ht', rfl⟩ := ha
  obtain ⟨u, u', hu, hu', rfl⟩ := hb
  obtain ⟨-, -, hbehind⟩ := List.pairwise_append.mp h.ordered
  have hmem := List.mem_of_mem_head? ht
  have hmem' := List.mem_of_getLast? ht'
  have hmemu := List.mem_append_right mid (List.mem_of_mem_head? hu)
  have hmemu' := List.mem_append_right mid (List.mem_of_getLast? hu')
  have hpt := h.proper t (List.mem_append_left _ hmem)
  have hpu := h.proper u (List.mem_append_right _ hmemu)
  have hpu' := h.proper u' (List.mem_append_right _ hmemu')
  have hstart : t.span.start ≤ u.span.start := Nat.le_trans hpt.2 (hbehind t hmem u hmemu)
  have hstop : t'.span.stop ≤ u'.span.stop :=
    Nat.le_trans (hbehind t' hmem' u' hmemu') hpu'.2
  refine ⟨t, u', ?_, ?_, Span.merge_eq hpt.1 hpu.1 hstart hstop⟩
  · rw [List.head?_append, ht]
    rfl
  · rw [List.getLast?_append, List.getLast?_append, hu']
    rfl

/-- The merge of the spans of the first token and the last one. -/
theorem bounds_ends {t u : Token} (mid us : List Token) (hu : us.getLast? = some u)
    (h : Row (t :: (mid ++ us))) : Bounds (t :: (mid ++ us)) (t.span.merge u.span) := by
  obtain ⟨vs, rfl⟩ := List.getLast?_eq_some_iff.mp hu
  rw [← List.append_assoc] at h ⊢
  exact (bounds_singleton t).merge (bounds_singleton u) _ h

/-! ## Trees over rows -/

mutual

/-- `Spread tree ts`: the tree lies over the tokens. -/
inductive Spread : Tree → List Token → Prop
  | expr {e : Expr} {ts : List Token} (bounds : Bounds ts e.span)
      (phrase : Grammar.Expression (ts.map Token.kind) e.shape)
      (parts : SpreadAll (Tree.expr e).children ts) : Spread (.expr e) ts
  | stmt {st : Stmt} {ts : List Token} (bounds : Bounds ts st.span)
      (parts : SpreadAll (Tree.stmt st).children ts) : Spread (.stmt st) ts
  | empty {word name semicolon : Token} {span : Span} {x : String} {i : Nat}
      (hword : word.kind = .word .letWord) (hname : name.kind = .name x)
      (hsemicolon : semicolon.kind = .mark .semicolon)
      (bounds : Bounds [word, name, semicolon] span) :
      Spread (.stmt (.declare span x (.literal ⟨i, name.span⟩ (.string ""))))
        [word, name, semicolon]

/-- The trees lie over stretches of the tokens, one behind the other. -/
inductive SpreadAll : List Tree → List Token → Prop
  | nil {ts : List Token} : SpreadAll [] ts
  | cons {tree : Tree} {trees : List Tree} {ts us : List Token} (gap : List Token)
      (first : Spread tree ts) (others : SpreadAll trees us) :
      SpreadAll (tree :: trees) (gap ++ (ts ++ us))

end

theorem Spread.bounds {tree : Tree} {ts : List Token} (h : Spread tree ts) :
    Bounds ts tree.span := by
  cases h with
  | expr bounds _ _ => exact bounds
  | stmt bounds _ => exact bounds
  | empty _ _ _ bounds => exact bounds

theorem Spread.phrase {e : Expr} {ts : List Token} (h : Spread (.expr e) ts) :
    Grammar.Expression (ts.map Token.kind) e.shape := by
  cases h with
  | expr _ phrase _ => exact phrase

/-- Other tokens may stand in front. -/
theorem SpreadAll.behind {trees : List Tree} {ts : List Token} (gap : List Token)
    (h : SpreadAll trees ts) : SpreadAll trees (gap ++ ts) := by
  cases h with
  | nil => exact .nil
  | cons gap' first others =>
      rw [← List.append_assoc]
      exact .cons (gap ++ gap') first others

/-- Other tokens may stand behind. -/
theorem SpreadAll.before {trees : List Tree} {ts : List Token} (us : List Token)
    (h : SpreadAll trees ts) : SpreadAll trees (ts ++ us) := by
  cases h with
  | nil => exact .nil
  | cons gap first others =>
      rw [List.append_assoc, List.append_assoc]
      exact .cons gap first (others.before us)

end Dam
