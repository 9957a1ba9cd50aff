import Dam.Proofs.Lookahead
import Mathlib.Data.List.Chain
import Mathlib.Data.List.Induction

/-!
# Spans tile the source

The cursor counts bytes, lines and columns as it goes. Here is what the counts come to:
the span of a token says where its lexeme stands in the text, and the lexemes, with the
trivia between them, make up the text from its beginning to its end.

`Tiles` is the shape of the whole text, one constructor for each token read; it is built
along the run of the lexer (`tiles_of_tokensFrom`), and `Tiling` is read off it.
-/

namespace Dam

/-- The span of the text `lexeme` that stands behind the text `before`. -/
def Span.over (before lexeme : String) : Span where
  start := before.utf8ByteSize
  stop := (before ++ lexeme).utf8ByteSize
  line := 1 + before.toList.count '\n'
  col := 1 + (before.toList.reverse.takeWhile (· ≠ '\n')).length

/-- The counters of a span can hold it: offsets have 64 bits, lines and columns 32. -/
def Span.Fits (s : Span) : Prop :=
  s.start < twoTo 64 ∧ s.stop < twoTo 64 ∧ s.line < twoTo 32 ∧ s.col < twoTo 32

/-! ## Positions -/

namespace Position

/-- **The cursor counts right**: bytes, line feeds, and characters since the last line feed. -/
theorem afterAll_start (cs : List Char) :
    start.afterAll cs = ⟨(String.ofList cs).utf8ByteSize, 1 + cs.count '\n',
      1 + (cs.reverse.takeWhile (· ≠ '\n')).length⟩ := by
  induction cs using List.reverseRecOn with
  | nil => rfl
  | append_singleton cs c ih =>
      have hbytes : (String.ofList (cs ++ [c])).utf8ByteSize =
          (String.ofList cs).utf8ByteSize + c.utf8Size := by
        rw [String.ofList_append, String.utf8ByteSize_append, ← String.singleton_eq_ofList,
          String.utf8ByteSize_singleton]
      rw [afterAll_append, ih, hbytes]
      show after _ c = _
      unfold after
      by_cases hc : c = '\n'
      · subst hc
        simp [Nat.add_assoc]
      · simp [hc, Nat.add_assoc]

theorem spanTo_afterAll (before lexeme : List Char) :
    (start.afterAll before).spanTo (start.afterAll (before ++ lexeme)) =
      .over (String.ofList before) (String.ofList lexeme) := by
  simp only [afterAll_start, spanTo, Span.over, String.toList_ofList, String.ofList_append]

end Position

/-! ## One token -/

theorem Lexeme.eq_nil_iff {kind : TokenKind} {cs : List Char} (h : Lexeme kind cs) :
    cs = [] ↔ kind = .endOfInput := by
  cases h with
  | @word s k hk =>
      obtain rfl : k.text = s := Keyword.mem_keywordTable.mp hk
      cases k <;> simp [Keyword.text]
  | @mark s m hm =>
      obtain rfl : m.text = s := Mark.mem_markTable.mp hm
      cases m <;> simp [Mark.text]
  | name _ _ _ => simp
  | whole hds _ => simp [hds.1]
  | decimal _ _ _ => simp
  | string _ => simp
  | endOfInput => simp

namespace Cursor

/-- The next token stands behind some trivia, and its span is that of its lexeme. -/
theorem lexeme_of_next {k k' : Cursor} {t : Token} (h : k.next = (.ok t, k')) :
    ∃ gap lexeme, k.Passes (gap ++ lexeme) k' ∧ Trivia gap (lexeme ++ k'.rest) ∧
      Lexeme t.kind lexeme ∧ Apart t.kind lexeme k'.rest ∧ (lexeme = [] → k'.rest = []) ∧
      t.span = (k.position.afterAll gap).spanTo (k.position.afterAll (gap ++ lexeme)) := by
  obtain ⟨gap, hpass, htrivia⟩ := skipTrivia_passes k
  unfold next at h
  dsimp only at h
  split at h
  · rename_i hrest
    cases h
    refine ⟨gap, [], by simpa using hpass, by simpa using htrivia, .endOfInput, trivial,
      fun _ => hrest, ?_⟩
    simp [hpass.position]
  · rename_i c cs hrest
    cases ho : (scan c cs).outcome with
    | error e => simp [ho] at h
    | ok kind =>
        simp only [ho, Prod.mk.injEq, Except.ok.injEq] at h
        obtain ⟨rfl, rfl⟩ := h
        have happend := scan_append c cs
        have hscan : k.skipTrivia.Passes (scan c cs).lexeme
            ⟨(scan c cs).rest, k.skipTrivia.position.afterAll (scan c cs).lexeme⟩ :=
          ⟨by rw [hrest, happend], rfl⟩
        have hcomment := (noTrivia_skipTrivia k).comment
        rw [hrest] at hcomment
        refine ⟨gap, (scan c cs).lexeme, hpass.trans hscan, ?_, lexeme_of_scan ho,
          apart_of_scan ho hcomment, fun hnil => absurd hnil (scan_lexeme_ne_nil c cs), ?_⟩
        · rw [happend, ← hrest]
          exact htrivia
        · rw [hpass.position, Position.afterAll_append]

end Cursor

/-! ## All tokens -/

/--
`Tiles before rest tokens`: behind the text `before`, the text `rest` is made up of the
lexemes of the tokens, with trivia in front of each, and no lexeme goes on behind its end.
-/
inductive Tiles : String → String → List Token → Prop
  | last {before gap : String} :
      Trivia gap.toList [] →
      Tiles before gap [⟨.endOfInput, .over (before ++ gap) ""⟩]
  | next {before gap lexeme rest : String} {kind : TokenKind} {ts : List Token} :
      Trivia gap.toList (lexeme ++ rest).toList → Lexeme kind lexeme.toList →
      Apart kind lexeme.toList rest.toList → kind ≠ .endOfInput →
      Tiles (before ++ gap ++ lexeme) rest ts →
      Tiles before (gap ++ lexeme ++ rest) (⟨kind, .over (before ++ gap) lexeme⟩ :: ts)

theorem Cursor.tiles_of_tokensFrom {done tokens : List Token} {k k' : Cursor}
    {before : List Char} (h : tokensFrom done k = (.ok tokens, k'))
    (hk : k.position = Position.start.afterAll before) :
    ∃ new, tokens = done.reverse ++ new ∧
      Tiles (String.ofList before) (String.ofList k.rest) new := by
  fun_induction tokensFrom done k generalizing before with
  | case1 done k e k₁ hnext => cases h
  | case2 done k t k₁ hnext ht =>
      cases h
      obtain ⟨gap, lexeme, hpass, htrivia, hlexeme, _, hend, hspan⟩ := lexeme_of_next hnext
      obtain rfl := hlexeme.eq_nil_iff.mpr ht
      refine ⟨[t], by simp, ?_⟩
      rw [hk, ← Position.afterAll_append, ← Position.afterAll_append, ← List.append_assoc,
        Position.spanTo_afterAll, String.ofList_append] at hspan
      obtain ⟨kind, span⟩ := t
      obtain rfl : kind = .endOfInput := ht
      obtain rfl := hspan
      rw [hpass.rest, hend rfl, List.append_nil, List.append_nil]
      refine .last ?_
      rw [hend rfl] at htrivia
      simpa using htrivia
  | case3 done k t k₁ hnext ht ih =>
      obtain ⟨gap, lexeme, hpass, htrivia, hlexeme, hapart, _, hspan⟩ := lexeme_of_next hnext
      have hk₁ : k₁.position = Position.start.afterAll (before ++ (gap ++ lexeme)) := by
        rw [hpass.position, hk, ← Position.afterAll_append]
      obtain ⟨new, rfl, htiles⟩ := ih h hk₁
      refine ⟨t :: new, by simp, ?_⟩
      rw [hk, ← Position.afterAll_append, ← Position.afterAll_append, ← List.append_assoc,
        Position.spanTo_afterAll, String.ofList_append] at hspan
      obtain ⟨kind, span⟩ := t
      obtain rfl := hspan
      rw [hpass.rest, String.ofList_append, String.ofList_append]
      refine .next ?_ ?_ ?_ ht ?_
      · simpa using htrivia
      · simpa using hlexeme
      · simpa using hapart
      · simpa [String.ofList_append, String.append_assoc] using htiles

theorem tiles_of_lex {source : String} {tokens : List Token} (h : lex source = .ok tokens) :
    Tiles "" source tokens := by
  have hrun : Cursor.tokensFrom [] (.ofText source) =
      (.ok tokens, (Cursor.tokens (.ofText source)).2) := Prod.ext h rfl
  have hstart : (Cursor.ofText source).position = Position.start.afterAll [] := rfl
  obtain ⟨new, rfl, htiles⟩ := Cursor.tiles_of_tokensFrom hrun hstart
  simpa [Cursor.ofText] using htiles

/-! ## What the shape says about spans -/

/-- Between two byte offsets of a text there is nothing but trivia. -/
def Gap (source : String) (start stop : Nat) : Prop :=
  ∃ before gap after, source = before ++ gap ++ after ∧ before.utf8ByteSize = start ∧
    (before ++ gap).utf8ByteSize = stop ∧ Trivia gap.toList after.toList

/-- The span is that of a lexeme of the token. -/
def Token.Stands (source : String) (t : Token) : Prop :=
  ∃ before lexeme after, source = before ++ lexeme ++ after ∧ t.span = .over before lexeme ∧
    Lexeme t.kind lexeme.toList

namespace Tiles

variable {source before rest : String} {tokens : List Token}

/-- Exactly the last token is the end, an empty span behind the whole text. -/
theorem ends (h : Tiles before rest tokens) :
    ∃ body, tokens = body ++ [⟨.endOfInput, .over (before ++ rest) ""⟩] ∧
      ∀ t ∈ body, t.kind ≠ .endOfInput := by
  induction h with
  | last _ => exact ⟨[], rfl, by simp⟩
  | @next before gap lexeme rest kind ts _ _ _ hkind _ ih =>
      obtain ⟨body, rfl, hbody⟩ := ih
      refine ⟨⟨kind, .over (before ++ gap) lexeme⟩ :: body, by simp [String.append_assoc], ?_⟩
      intro t ht
      rcases List.mem_cons.mp ht with rfl | ht
      · exact hkind
      · exact hbody t ht

theorem start_le (h : Tiles before rest tokens) :
    ∀ t ∈ tokens, before.utf8ByteSize ≤ t.span.start := by
  induction h with
  | last _ => simp [Span.over]
  | next _ _ _ _ _ ih =>
      intro t ht
      rcases List.mem_cons.mp ht with rfl | ht
      · simp [Span.over]
      · have := ih t ht
        simp only [String.utf8ByteSize_append] at this
        omega

theorem ordered (h : Tiles before rest tokens) :
    tokens.Pairwise fun s t => s.span.stop ≤ t.span.start := by
  induction h with
  | last _ => simp
  | next _ _ _ _ hts ih => exact List.pairwise_cons.mpr ⟨hts.start_le, ih⟩

theorem stands (h : Tiles before rest tokens) (hs : source = before ++ rest) :
    ∀ t ∈ tokens, t.Stands source := by
  induction h with
  | @last before gap _ =>
      intro t ht
      rw [List.mem_singleton.mp ht]
      exact ⟨before ++ gap, "", "", by simpa using hs, rfl, .endOfInput⟩
  | @next before gap lexeme rest kind ts _ hlexeme _ _ _ ih =>
      have hs' : source = before ++ gap ++ lexeme ++ rest := by
        simpa [String.append_assoc] using hs
      intro t ht
      rcases List.mem_cons.mp ht with rfl | ht
      · exact ⟨before ++ gap, lexeme, rest, hs', rfl, hlexeme⟩
      · exact ih hs' t ht

theorem gap_first (h : Tiles before rest tokens) (hs : source = before ++ rest) :
    ∀ t, tokens.head? = some t → Gap source before.utf8ByteSize t.span.start := by
  cases h with
  | last htrivia =>
      rintro _ ⟨⟩
      exact ⟨before, rest, "", by simpa using hs, rfl, rfl, by simpa using htrivia⟩
  | @next _ gap lexeme rest kind ts htrivia _ _ _ _ =>
      rintro _ ⟨⟩
      exact ⟨before, gap, lexeme ++ rest, by simpa [String.append_assoc] using hs, rfl, rfl,
        htrivia⟩

theorem gaps (h : Tiles before rest tokens) (hs : source = before ++ rest) :
    tokens.IsChain fun s t => Gap source s.span.stop t.span.start := by
  induction h with
  | last _ => exact List.isChain_singleton _
  | @next before gap lexeme rest kind ts _ _ _ _ hts ih =>
      have hs' : source = before ++ gap ++ lexeme ++ rest := by
        simpa [String.append_assoc] using hs
      refine List.isChain_cons.mpr ⟨fun t ht => ?_, ih hs'⟩
      exact hts.gap_first hs' t ht

end Tiles

/-- How the spans of the tokens of a text lie in it. -/
structure Tiling (source : String) (tokens : List Token) : Prop where
  /-- Exactly the last token is the end, and its span is empty and behind the whole text. -/
  ends : ∃ body, tokens = body ++ [⟨.endOfInput, .over source ""⟩] ∧
    ∀ t ∈ body, t.kind ≠ .endOfInput
  /-- Spans are in the order of the text and do not overlap. -/
  ordered : tokens.Pairwise fun s t => s.span.stop ≤ t.span.start
  nonempty : ∀ t ∈ tokens, t.kind ≠ .endOfInput → t.span.start < t.span.stop
  /-- The text under a span is a lexeme of the token, and the span says where it stands. -/
  stands : ∀ t ∈ tokens, t.Stands source
  /-- In front of the first token and between tokens there is trivia only. -/
  first : ∀ t, tokens.head? = some t → Gap source 0 t.span.start
  gaps : tokens.IsChain fun s t => Gap source s.span.stop t.span.start

/-- **Token spans tile the source.** -/
theorem tiling_of_lex {source : String} {tokens : List Token} (h : lex source = .ok tokens) :
    Tiling source tokens := by
  have htiles := tiles_of_lex h
  have hs : source = "" ++ source := by simp
  refine ⟨by simpa using htiles.ends, htiles.ordered, fun t ht hkind => ?_, htiles.stands hs,
    htiles.gap_first hs, htiles.gaps hs⟩
  obtain ⟨before, lexeme, after, _, hspan, hlexeme⟩ := htiles.stands hs t ht
  have hne : lexeme ≠ "" := by
    rintro rfl
    exact hkind (hlexeme.eq_nil_iff.mp rfl)
  have hpos : 0 < lexeme.utf8ByteSize :=
    Nat.pos_of_ne_zero fun hzero => hne (String.utf8ByteSize_eq_zero_iff.mp hzero)
  rw [hspan]
  simp only [Span.over, String.utf8ByteSize_append]
  omega

/-- A text with a comment, an escape, a character of two bytes and a number at its end. -/
def tilingSample : String := "let x = \"é\\n\"; // a\n  x<=1.5"

theorem tiling_of_lex_sample :
    ∃ tokens, lex tilingSample = .ok tokens ∧ Tiling tilingSample tokens ∧
      tokens.map Token.span = [⟨0, 3, 1, 1⟩, ⟨4, 5, 1, 5⟩, ⟨6, 7, 1, 7⟩, ⟨8, 14, 1, 9⟩,
        ⟨14, 15, 1, 14⟩, ⟨23, 24, 2, 3⟩, ⟨24, 26, 2, 4⟩, ⟨26, 29, 2, 6⟩, ⟨29, 29, 2, 9⟩] := by
  have hspans : (lex tilingSample).toOption.map (·.map Token.span) = some [⟨0, 3, 1, 1⟩,
      ⟨4, 5, 1, 5⟩, ⟨6, 7, 1, 7⟩, ⟨8, 14, 1, 9⟩, ⟨14, 15, 1, 14⟩, ⟨23, 24, 2, 3⟩, ⟨24, 26, 2, 4⟩,
      ⟨26, 29, 2, 6⟩, ⟨29, 29, 2, 9⟩] := by decide +kernel
  cases h : lex tilingSample with
  | error e => rw [h] at hspans; cases hspans
  | ok tokens =>
      rw [h] at hspans
      exact ⟨tokens, rfl, tiling_of_lex h, Option.some.inj hspans⟩

end Dam
