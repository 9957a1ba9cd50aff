import Dam.Proofs.GrammarCompleteness
import Dam.Proofs.Passage
import Dam.Proofs.Printing

/-!
# The text of a node

The span of a node marks the text that the node was parsed from, and for an expression this
text says it all: read by itself, as an expression, it gives the same tree. This needs three
things. The tokens of the text are those tokens of the whole text that the node lies over,
since a lexeme that stands apart in the whole text also does so where the text is cut. They
are an expression by themselves, by `Spread`. And an expression is parsed in the same way
wherever it stands (`Grammar.Expression.parses`).
-/

namespace Dam

/-! ## Texts cut out of a text -/

/-- In front of a text, only the first character of it matters. -/
theorem Trivia.of_head {gap rest rest' : List Char} (h : Trivia gap rest)
    (hhead : rest'.head? = rest.head?) : Trivia gap rest' := by
  induction h with
  | nil => exact .nil
  | blank hc _ ih => exact .blank hc (ih hhead)
  | @comment text gap rest htext hnext _ ih =>
      refine .comment htext (fun c hc => hnext c ?_) (ih hhead)
      rw [List.head?_append] at hc ⊢
      rw [← hhead]
      exact hc

namespace Tiles

variable {before rest : String} {t : Token} {ts us : List Token}

/-- The first of several tiles. -/
theorem first (h : Tiles before rest (t :: us)) (hus : us ≠ []) :
    ∃ gap lexeme rest', rest = gap ++ lexeme ++ rest' ∧ t.span = .over (before ++ gap) lexeme ∧
      Trivia gap.toList (lexeme ++ rest').toList ∧ Lexeme t.kind lexeme.toList ∧
      Apart t.kind lexeme.toList rest'.toList ∧ t.kind ≠ .endOfInput ∧
      Tiles (before ++ gap ++ lexeme) rest' us := by
  cases h with
  | last => exact absurd rfl hus
  | @next _ gap lexeme rest' kind _ hgap hlexeme hapart hkind htiles =>
      exact ⟨gap, lexeme, rest', rfl, rfl, hgap, hlexeme, hapart, hkind, htiles⟩

/-- What is left of the text behind some of its tokens. -/
theorem drop (h : Tiles before rest (ts ++ us)) (hus : us ≠ []) :
    ∃ front rest', rest = front ++ rest' ∧ Tiles (before ++ front) rest' us := by
  induction ts generalizing before rest with
  | nil => exact ⟨"", rest, by simp, by simpa using h⟩
  | cons t ts ih =>
      have hne : ts ++ us ≠ [] := List.append_ne_nil_of_right_ne_nil ts hus
      obtain ⟨gap, lexeme, rest₁, rfl, -, -, -, -, -, htiles⟩ := h.first hne
      obtain ⟨front, rest', rfl, hrest⟩ := ih htiles
      refine ⟨gap ++ lexeme ++ front, rest', by simp only [String.append_assoc], ?_⟩
      simpa only [String.append_assoc] using hrest

/-- Where the last of the tokens ends, or `n` if there is none. -/
def stopOf (n : Nat) (ts : List Token) : Nat := (ts.getLast?.map fun t => t.span.stop).getD n

theorem stopOf_cons (n : Nat) (t : Token) (ts : List Token) :
    stopOf n (t :: ts) = stopOf t.span.stop ts := by
  unfold stopOf
  rw [List.getLast?_cons]
  cases ts.getLast? <;> rfl

/-- The text may be cut off behind a token, and stand elsewhere. -/
theorem take (h : Tiles before rest (ts ++ us)) (hus : us ≠ []) (before' : String) :
    ∃ text after tokens, rest = text ++ after ∧ Tiles before' text tokens ∧
      tokens.map Token.kind = ts.map Token.kind ++ [.endOfInput] ∧
      (before ++ text).utf8ByteSize = stopOf before.utf8ByteSize ts := by
  induction ts generalizing before rest before' with
  | nil => exact ⟨"", rest, _, by simp, .last .nil, rfl, by simp [stopOf]⟩
  | cons t ts ih =>
      have hne : ts ++ us ≠ [] := List.append_ne_nil_of_right_ne_nil ts hus
      obtain ⟨gap, lexeme, rest₁, rfl, hspan, hgap, hlexeme, hapart, hkind, htiles⟩ := h.first hne
      obtain ⟨text, after, tokens, rfl, hcut, hkinds, hsize⟩ := ih htiles (before' ++ gap ++ lexeme)
      refine ⟨gap ++ lexeme ++ text, after, ⟨t.kind, .over (before' ++ gap) lexeme⟩ :: tokens,
        by simp only [String.append_assoc], .next ?_ hlexeme ?_ hkind hcut, ?_, ?_⟩
      · refine hgap.of_head ?_
        have hne : lexeme.toList ≠ [] := fun hnil => hkind (hlexeme.eq_nil_iff.mp hnil)
        obtain ⟨c, cs, hcs⟩ := List.exists_cons_of_ne_nil hne
        rw [String.toList_append, String.toList_append, hcs]
        rfl
      · rw [String.toList_append] at hapart
        exact hapart.of_append
      · rw [List.map_cons, hkinds]
        rfl
      · rw [← String.append_assoc, ← String.append_assoc, hsize, stopOf_cons, hspan]
        rfl

/-- **The text under some tokens has these tokens**, if it is cut off at both ends. -/
theorem slice {source : String} {vs : List Token} {span : Span}
    (h : Tiles "" source (us ++ (ts ++ vs))) (hvs : vs ≠ []) (hspan : Bounds ts span) :
    ∃ before slice after tokens, source = before ++ slice ++ after ∧
      before.utf8ByteSize = span.start ∧ (before ++ slice).utf8ByteSize = span.stop ∧
      lex slice = .ok tokens ∧ tokens.map Token.kind = ts.map Token.kind ++ [.endOfInput] := by
  obtain ⟨t, last, ht, hlast, rfl⟩ := hspan
  obtain ⟨ts, rfl⟩ := List.head?_eq_some_iff.mp ht
  have hne : ts ++ vs ≠ [] := List.append_ne_nil_of_right_ne_nil ts hvs
  obtain ⟨front, rest, rfl, hrest⟩ := h.drop (List.cons_ne_nil t (ts ++ vs))
  obtain ⟨gap, lexeme, rest, rfl, hstart, -, hlexeme, hapart, hkind, htiles⟩ := hrest.first hne
  obtain ⟨text, after, tokens, rfl, hcut, hkinds, hsize⟩ := htiles.take hvs lexeme
  -- the slice begins with the first lexeme: what stands in front of it is cut off
  have hslice : Tiles "" (lexeme ++ text) (⟨t.kind, .over "" lexeme⟩ :: tokens) := by
    rw [String.toList_append] at hapart
    have hnext : Tiles "" ("" ++ lexeme ++ text) (⟨t.kind, .over ("" ++ "") lexeme⟩ :: tokens) :=
      .next .nil hlexeme hapart.of_append hkind (by simpa using hcut)
    simpa using hnext
  refine ⟨front ++ gap, lexeme ++ text, after, _, by simp only [String.append_assoc], ?_, ?_,
    lex_of_tiles hslice, ?_⟩
  · rw [hstart]
    simp [Span.over]
  · have hstop : stopOf 0 (t :: ts) = last.span.stop := by rw [stopOf, hlast]; rfl
    rw [stopOf_cons, hstart] at hstop
    rw [← hstop, ← String.append_assoc]
    simpa [Span.over] using hsize
  · rw [List.map_cons, hkinds]
    rfl

end Tiles

/-! ## Reading again -/

/--
The text under the span of the expression, lexed and parsed by itself as an expression, is
read to its end and gives an expression of the same shape.
-/
def Rereads (source : String) (e : Expr) : Prop :=
  ∃ before slice after tokens e' s h, source = before ++ slice ++ after ∧
    before.utf8ByteSize = e.span.start ∧ (before ++ slice).utf8ByteSize = e.span.stop ∧
    lex slice = .ok tokens ∧ Parser.expression (.start tokens) = .ok e' s h ∧ s.left = 0 ∧
    e'.shape = e.shape

theorem rereads_of_spread {source : String} {e : Expr} {ts us vs : List Token}
    (h : Tiles "" source (us ++ (ts ++ vs))) (hvs : vs ≠ []) (hspread : Spread (.expr e) ts)
    (hinner : ∀ t ∈ ts, t.kind.isEnd = false) : Rereads source e := by
  obtain ⟨before, slice, after, tokens, hsource, hstart, hstop, hlex, hkinds⟩ :=
    h.slice hvs hspread.bounds
  have hstate : (Parser.State.start tokens).kinds = ts.map Token.kind ++ [] := by
    have hkind : ∀ k ∈ ts.map Token.kind, decide (k ≠ .endOfInput) = true := by
      intro k hk
      obtain ⟨t, ht, rfl⟩ := List.mem_map.mp hk
      refine decide_eq_true fun hend => ?_
      have hinner := hinner t ht
      rw [hend] at hinner
      cases hinner
    rw [Parser.State.kinds_start, hkinds, List.takeWhile_append_of_pos hkind]
    rfl
  obtain ⟨e', s, hs, hrun, hshape, hleft, -⟩ :=
    hspread.phrase.parses (.start tokens) [] hstate ⟨rfl, nofun⟩
  refine ⟨before, slice, after, tokens, e', s, hs, hsource, hstart, hstop, hlex, hrun, ?_, hshape⟩
  simpa [Parser.State.kinds, Parser.State.left] using congrArg List.length hleft

/-! ## The nodes of a tree -/

/-- `Below node tree`: the node is the top of the tree or somewhere below it. -/
inductive Below : Tree → Tree → Prop
  | self {tree : Tree} : Below tree tree
  | part {node child tree : Tree} (hchild : child ∈ tree.children) (hnode : Below node child) :
      Below node tree

/-- The value that a declaration without one is given: an empty string, at the name. -/
def Invented (tokens : List Token) (e : Expr) (declaration : Stmt) : Prop :=
  ∃ n i x span word name semicolon, tokens.extract n (n + 3) = [word, name, semicolon] ∧
    word.kind = .word .letWord ∧ name.kind = .name x ∧ semicolon.kind = .mark .semicolon ∧
    declaration = .declare span x e ∧ Bounds [word, name, semicolon] span ∧
    e = .literal ⟨i, name.span⟩ (.string "")

theorem SpreadAll.of_mem {trees : List Tree} {tree : Tree} {ts : List Token}
    (h : SpreadAll trees ts) (hmem : tree ∈ trees) :
    ∃ us vs ws, ts = us ++ (vs ++ ws) ∧ Spread tree vs := by
  cases h with
  | nil => cases hmem
  | @cons first trees vs ws gap hfirst hothers =>
      rcases List.mem_cons.mp hmem with rfl | hmem
      · exact ⟨gap, vs, ws, rfl, hfirst⟩
      · obtain ⟨us, vs', ws, rfl, hspread⟩ := hothers.of_mem hmem
        exact ⟨gap ++ (vs ++ us), vs', ws, by simp only [List.append_assoc], hspread⟩

theorem extract_middle (us ts vs : List Token) :
    (us ++ (ts ++ vs)).extract us.length (us.length + ts.length) = ts := by
  simp [List.extract_eq_take_drop]

/-- Every expression of a tree lies over some of its tokens, but for the invented ones. -/
theorem Below.spread {tokens : List Token} {e : Expr} {tree : Tree} {us ts vs : List Token}
    (h : Below (.expr e) tree) (hspread : Spread tree ts) (htokens : tokens = us ++ (ts ++ vs)) :
    (∃ as bs cs, ts = as ++ (bs ++ cs) ∧ Spread (.expr e) bs) ∨
      ∃ st, Below (.stmt st) tree ∧ Invented tokens e st := by
  induction h generalizing us ts vs with
  | self => exact .inl ⟨[], ts, [], by simp, hspread⟩
  | @part child tree hchild hbelow ih =>
      have hparts (hparts : SpreadAll tree.children ts) :
          (∃ as bs cs, ts = as ++ (bs ++ cs) ∧ Spread (.expr e) bs) ∨
            ∃ st, Below (.stmt st) tree ∧ Invented tokens e st := by
        obtain ⟨us', ts', vs', rfl, hpart⟩ := hparts.of_mem hchild
        have hsplit : tokens = us ++ us' ++ (ts' ++ (vs' ++ vs)) := by simpa using htokens
        rcases ih hpart hsplit with ⟨as, bs, cs, rfl, hexpr⟩ | ⟨st, hst, hinvented⟩
        · exact .inl ⟨us' ++ as, bs, cs ++ vs', by simp, hexpr⟩
        · exact .inr ⟨st, .part hchild hst, hinvented⟩
      cases hspread with
      | expr _ _ parts => exact hparts parts
      | stmt _ parts => exact hparts parts
      | @empty word name semicolon span x i hword hname hsemicolon bounds =>
          -- the declaration has one part, which has none
          obtain rfl := List.mem_singleton.mp hchild
          cases hbelow with
          | part hnone _ => cases hnone
          | self =>
              refine .inr ⟨_, .self, us.length, i, x, span, word, name, semicolon, ?_, hword, hname,
                hsemicolon, rfl, bounds, rfl⟩
              rw [htokens]
              exact extract_middle us [word, name, semicolon] vs

/-! ## Ranges of tokens -/

mutual

/--
`Ranged tokens tree i j`: the node covers the tokens from number `i` up to and without number
`j`, and the nodes below it cover ranges in between.
-/
inductive Ranged (tokens : List Token) : Tree → Nat → Nat → Prop
  | node {tree : Tree} {i j : Nat} (nonempty : i < j) (inside : j ≤ tokens.length)
      (bounds : Bounds (tokens.extract i j) tree.span)
      (parts : RangedAll tokens tree.children i j) : Ranged tokens tree i j

/-- The nodes cover ranges between `i` and `j`, in order and without overlap. -/
inductive RangedAll (tokens : List Token) : List Tree → Nat → Nat → Prop
  | nil {i j : Nat} (le : i ≤ j) : RangedAll tokens [] i j
  | cons {tree : Tree} {trees : List Tree} {i i' j' j : Nat} (le : i ≤ i')
      (first : Ranged tokens tree i' j') (others : RangedAll tokens trees j' j) :
      RangedAll tokens (tree :: trees) i j

end

theorem Ranged.over {tokens us ts vs : List Token} {tree : Tree} (h : tokens = us ++ (ts ++ vs))
    (bounds : Bounds ts tree.span)
    (parts : RangedAll tokens tree.children us.length (us.length + ts.length)) :
    Ranged tokens tree us.length (us.length + ts.length) := by
  have hpos : 0 < ts.length := by
    obtain ⟨t, _, ht, _⟩ := bounds
    exact List.length_pos_of_mem (List.mem_of_mem_head? ht)
  refine .node (by omega) ?_ ?_ parts
  · rw [h, List.length_append, List.length_append]
    omega
  · rw [h, extract_middle]
    exact bounds

mutual

theorem Spread.ranged {tokens : List Token} (us vs : List Token) : ∀ {tree : Tree}
    {ts : List Token}, Spread tree ts → tokens = us ++ (ts ++ vs) →
    Ranged tokens tree us.length (us.length + ts.length)
  | _, _, .expr bounds _ parts, h => .over h bounds (parts.ranged us vs h)
  | _, _, .stmt bounds parts, h => .over h bounds (parts.ranged us vs h)
  | _, _, @Spread.empty word name semicolon _ _ _ _ _ _ bounds, h => by
      have hname : tokens = us ++ [word] ++ ([name] ++ ([semicolon] ++ vs)) := by simpa using h
      refine .over h bounds (.cons ?_ (.over hname (bounds_singleton name) ?_) (.nil ?_))
      · simp
      · exact .nil (Nat.le_add_right _ _)
      · simp

theorem SpreadAll.ranged {tokens : List Token} (us vs : List Token) : ∀ {trees : List Tree}
    {ts : List Token}, SpreadAll trees ts → tokens = us ++ (ts ++ vs) →
    RangedAll tokens trees us.length (us.length + ts.length)
  | _, _, .nil, _ => .nil (Nat.le_add_right _ _)
  | _, _, @SpreadAll.cons _ _ ts ws gap first others, h => by
      have hfirst : tokens = us ++ gap ++ (ts ++ (ws ++ vs)) := by simpa using h
      have hothers : tokens = us ++ gap ++ ts ++ (ws ++ vs) := by simpa using h
      refine .cons ?_ (first.ranged (us ++ gap) (ws ++ vs) hfirst) ?_
      · simp
      · have hrest := others.ranged (us ++ gap ++ ts) vs hothers
        simpa [Nat.add_assoc] using hrest

end

/-! ## Parsed texts -/

/-- The statements of a text lie over its tokens. -/
theorem spread_of_parse {source : String} {tokens : List Token} {p : Program}
    (hlex : lex source = .ok tokens) (hparse : parse tokens = .ok p) :
    ∃ ts us, tokens = ts ++ us ∧ us ≠ [] ∧ (∀ t ∈ ts, t.kind.isEnd = false) ∧
      SpreadAll (p.stmts.map Tree.stmt) ts := by
  obtain ⟨ts, es, ss, htakes, -, hss, hspread⟩ :=
    Parser.declarations_takes false [] (.start tokens) (Nat.le_refl _)
  have hstmts : p.stmts = ss := by
    rw [Parser.parse_eq rfl, hss] at hparse
    split at hparse
    · cases hparse
      rfl
    · cases hparse
  have hrest : tokens = ts ++ _ := htakes.rest
  have hrow := row_of_lex hlex
  rw [hrest] at hrow
  refine ⟨ts, _, hrest, htakes.rest_ne_nil (exists_isEnd_of_lex hlex), htakes.inner, ?_⟩
  rw [hstmts]
  exact hspread hrow.of_append.1

/--
**Every node stands for the tokens it was parsed from.** The nodes of a program cover ranges of
its tokens, the parts of a node within its range and in order; and every expression can be read
again from the text under its span, but for the value that `let x;` gives to `x`.
-/
theorem nodes_of_parse {source : String} {tokens : List Token} {p : Program}
    (hlex : lex source = .ok tokens) (hparse : parse tokens = .ok p) :
    RangedAll tokens (p.stmts.map .stmt) 0 tokens.length ∧
      ∀ st ∈ p.stmts, ∀ e, Below (.expr e) (.stmt st) →
        Rereads source e ∨ ∃ st', Below (.stmt st') (.stmt st) ∧ Invented tokens e st' := by
  obtain ⟨ts, us, rfl, hus, hinner, hspread⟩ := spread_of_parse hlex hparse
  refine ⟨?_, fun st hst e he => ?_⟩
  · simpa using (hspread.before us).ranged [] [] (by simp)
  · obtain ⟨vs, ws, xs, rfl, hst⟩ := hspread.of_mem (List.mem_map_of_mem hst)
    have htokens : vs ++ (ws ++ xs) ++ us = vs ++ (ws ++ (xs ++ us)) := by simp
    rcases he.spread hst htokens with ⟨as, bs, cs, rfl, hexpr⟩ | hinvented
    · have htiles := tiles_of_lex hlex
      have hsplit : vs ++ (as ++ (bs ++ cs) ++ xs) ++ us =
          vs ++ as ++ (bs ++ (cs ++ (xs ++ us))) := by simp
      rw [hsplit] at htiles
      refine .inl (rereads_of_spread htiles (by simp [hus]) hexpr fun t ht => hinner t ?_)
      simp [ht]
    · exact .inr hinvented

/-- A value that is not written, a comment inside an expression, and operators of all kinds. -/
def nodesSample : String :=
  "let x; if (x == \"é\" or !true) \x7b x = y = 1.5 - 2 // -\n * (3); \x7d else print -x;"

theorem nodes_of_parse_sample :
    ∃ tokens p, lex nodesSample = .ok tokens ∧ parse tokens = .ok p ∧ p.stmts.length = 2 ∧
      RangedAll tokens (p.stmts.map .stmt) 0 tokens.length ∧
      ∀ st ∈ p.stmts, ∀ e, Below (.expr e) (.stmt st) →
        Rereads nodesSample e ∨ ∃ st', Below (.stmt st') (.stmt st) ∧ Invented tokens e st' := by
  have hlength : ((lex nodesSample).toOption.bind fun ts => (parse ts).toOption).map
      (fun p => p.stmts.length) = some 2 := by decide +kernel
  cases hlex : lex nodesSample with
  | error e =>
      rw [hlex] at hlength
      cases hlength
  | ok tokens =>
      rw [hlex] at hlength
      change (parse tokens).toOption.map (fun p => p.stmts.length) = some 2 at hlength
      cases hparse : parse tokens with
      | error es =>
          rw [hparse] at hlength
          cases hlength
      | ok p =>
          rw [hparse] at hlength
          exact ⟨tokens, p, rfl, hparse, Option.some.inj hlength, nodes_of_parse hlex hparse⟩

end Dam
