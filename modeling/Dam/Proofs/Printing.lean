import Dam.Proofs.Spans

/-!
# Lexing undoes printing

A text can be written from tokens: each is spelled as a lexeme, in one of the ways that it
has, and some white space or comment keeps it from the next. `Printed` relates the tokens and
every such text, and lexing gives the tokens back (`lex_of_printed`).

A printed text is a text that tiles: the lexemes stand apart since a blank follows them. And
tiling is not only what lexing leads to but all that it needs (`lex_of_tiles`), whichever way
the lexemes are kept apart.
-/

namespace Dam

/-! ## Every text that tiles is read -/

namespace Cursor

/-- Behind trivia, a lexeme that stands apart is the next token. -/
theorem next_of_lexeme {gap lexeme rest : List Char} {kind : TokenKind} (q : Position)
    (hgap : Trivia gap (lexeme ++ rest)) (hlexeme : Lexeme kind lexeme)
    (hrest : Apart kind lexeme rest) (hkind : kind ≠ .endOfInput) :
    next ⟨gap ++ (lexeme ++ rest), q⟩ =
      (.ok ⟨kind, (q.afterAll gap).spanTo (q.afterAll (gap ++ lexeme))⟩,
        ⟨rest, q.afterAll (gap ++ lexeme)⟩) := by
  have hskip := skipTrivia_of_trivia hgap (hlexeme.noTrivia hkind hrest) q
  obtain ⟨c, cs, rfl, hscan⟩ := scan_of_lexeme hlexeme hkind hrest
  rw [List.cons_append] at hskip ⊢
  simp only [next, hskip, hscan, Position.afterAll_append]

theorem next_at_end {gap : List Char} (q : Position) (hgap : Trivia gap []) :
    next ⟨gap, q⟩ =
      (.ok ⟨.endOfInput, (q.afterAll gap).spanTo (q.afterAll gap)⟩, ⟨[], q.afterAll gap⟩) := by
  have hskip := skipTrivia_of_trivia hgap noTrivia_nil q
  rw [List.append_nil] at hskip
  simp only [next, hskip]

theorem tokensFrom_token {k k' : Cursor} {t : Token} (done : List Token)
    (h : k.next = (.ok t, k')) (ht : t.kind ≠ .endOfInput) :
    tokensFrom done k = tokensFrom (t :: done) k' := by
  rw [tokensFrom]
  split
  · rename_i hnext
    cases h.symm.trans hnext
  · rename_i hnext
    cases h.symm.trans hnext
    rw [dif_neg ht]

theorem tokensFrom_end {k k' : Cursor} {t : Token} (done : List Token)
    (h : k.next = (.ok t, k')) (ht : t.kind = .endOfInput) :
    tokensFrom done k = (.ok (t :: done).reverse, k') := by
  rw [tokensFrom]
  split
  · rename_i hnext
    cases h.symm.trans hnext
  · rename_i hnext
    cases h.symm.trans hnext
    rw [dif_pos ht]

/-- The lexer reads a text that tiles from its beginning to its end. -/
theorem tokensFrom_of_tiles {before rest : String} {tokens : List Token}
    (h : Tiles before rest tokens) (done : List Token) :
    (tokensFrom done ⟨rest.toList, Position.start.afterAll before.toList⟩).1 =
      .ok (done.reverse ++ tokens) := by
  induction h generalizing done with
  | @last before gap hgap =>
      have hnext := next_at_end (Position.start.afterAll before.toList) hgap
      rw [tokensFrom_end done hnext rfl, List.reverse_cons]
      have hspan := Position.spanTo_afterAll (before ++ gap).toList []
      simp only [List.append_nil, String.toList_append, Position.afterAll_append,
        String.ofList_append, String.ofList_toList, String.ofList_nil] at hspan
      rw [hspan]
  | @next before gap lexeme rest kind ts hgap hlexeme hapart hkind _ ih =>
      rw [String.toList_append] at hgap
      have hnext := next_of_lexeme (Position.start.afterAll before.toList) hgap hlexeme hapart
        hkind
      have hspan := Position.spanTo_afterAll (before ++ gap).toList lexeme.toList
      simp only [String.toList_append, List.append_assoc, String.ofList_append,
        String.ofList_toList] at hspan
      simp only [← Position.afterAll_append, hspan] at hnext
      have ih := ih (⟨kind, .over (before ++ gap) lexeme⟩ :: done)
      simp only [String.toList_append, List.append_assoc] at ih ⊢
      rw [tokensFrom_token done hnext hkind, ih, List.reverse_cons, List.append_assoc,
        List.singleton_append]

end Cursor

/-- **A text that tiles is read as its tiles.** -/
theorem lex_of_tiles {source : String} {tokens : List Token} (h : Tiles "" source tokens) :
    lex source = .ok tokens :=
  Cursor.tokensFrom_of_tiles h []

/-! ## Printed texts -/

/-- White space, and comments that end with their line. -/
inductive Filler : List Char → Prop
  | nil : Filler []
  | blank {c : Char} {gap : List Char} :
      Text.isBlank c = true → Filler gap → Filler (c :: gap)
  | comment {text gap : List Char} :
      '\n' ∉ text → Filler gap → Filler ('/' :: '/' :: (text ++ '\n' :: gap))

/-- `Printed kinds text`: the tokens are written one by one, each in one of its spellings. -/
inductive Printed : List TokenKind → List Char → Prop
  | nil : Printed [] []
  | last {kind : TokenKind} {lexeme : List Char} :
      Lexeme kind lexeme → kind ≠ .endOfInput → Printed [kind] lexeme
  | next {kind : TokenKind} {lexeme : List Char} {c : Char} {gap : List Char}
      {kinds : List TokenKind} {text : List Char} :
      Lexeme kind lexeme → kind ≠ .endOfInput → Text.isBlank c = true → Filler gap →
      Printed kinds text → Printed (kind :: kinds) (lexeme ++ c :: (gap ++ text))

theorem Filler.trivia {gap : List Char} (h : Filler gap) (rest : List Char) :
    Trivia gap rest := by
  induction h with
  | nil => exact .nil
  | blank hc _ ih => exact .blank hc ih
  | comment htext _ ih =>
      refine .comment htext (fun c hc => ?_) (.blank (by decide) ih)
      exact (Option.some.inj hc).symm

/-- One more tile, in front. -/
theorem Tiles.behind (before : String) {gap lexeme rest : List Char} {kind : TokenKind}
    {ts : List Token} (hgap : Trivia gap (lexeme ++ rest)) (hlexeme : Lexeme kind lexeme)
    (hrest : Apart kind lexeme rest) (hkind : kind ≠ .endOfInput)
    (h : Tiles (before ++ String.ofList gap ++ String.ofList lexeme) (String.ofList rest) ts) :
    Tiles before (String.ofList (gap ++ (lexeme ++ rest)))
      (⟨kind, .over (before ++ String.ofList gap) (String.ofList lexeme)⟩ :: ts) := by
  rw [← List.append_assoc, String.ofList_append, String.ofList_append]
  refine .next ?_ ?_ ?_ hkind h
  · simpa using hgap
  · simpa using hlexeme
  · simpa using hrest

/-- A printed text tiles, also with white space and comments in front of it. -/
theorem Printed.tiles {kinds : List TokenKind} {text : List Char} (h : Printed kinds text)
    {gap : List Char} (hgap : Filler gap) (before : String) :
    ∃ tokens, Tiles before (String.ofList (gap ++ text)) tokens ∧
      tokens.map Token.kind = kinds ++ [.endOfInput] := by
  -- separators stand behind the lexemes here, and in front of them in a tiling
  induction h generalizing gap before with
  | nil => exact ⟨_, .last (by simpa using hgap.trivia []), rfl⟩
  | @last kind lexeme hlexeme hkind =>
      have htiles := Tiles.behind before (hgap.trivia (lexeme ++ [])) hlexeme
        (apart_nil kind lexeme) hkind (.last .nil)
      rw [List.append_nil] at htiles
      exact ⟨_, htiles, rfl⟩
  | @next kind lexeme c sep kinds text hlexeme hkind hc hsep _ ih =>
      obtain ⟨tokens, htiles, hkinds⟩ :=
        ih (hsep.blank hc) (before ++ String.ofList gap ++ String.ofList lexeme)
      refine ⟨_, .behind before (hgap.trivia _) hlexeme (apart_of_isBlank hc kind lexeme _) hkind
        htiles, ?_⟩
      rw [List.map_cons, hkinds, List.cons_append]

/-- **Lexing undoes printing.** -/
theorem lex_of_printed {kinds : List TokenKind} {text : String} (h : Printed kinds text.toList) :
    ∃ tokens, lex text = .ok tokens ∧ tokens.map Token.kind = kinds ++ [.endOfInput] := by
  obtain ⟨tokens, htiles, hkinds⟩ := h.tiles .nil ""
  rw [List.nil_append, String.ofList_toList] at htiles
  exact ⟨tokens, lex_of_tiles htiles, hkinds⟩

/-- Tokens that would be others without the separators between them. -/
def printedKinds : List TokenKind :=
  [.string "\"\\//\n\n", .mark .slash, .mark .slash, .number (numberValue ['1'] ['5']),
    .mark .dot, .name "lets", .word .letWord, .mark .bang, .mark .equal]

/-- The same line feed stands in the string as it is and escaped. -/
def printedText : String :=
  "\"\\\"\\\\//\n\\n\" // \"x\n/ / 1.5 . lets\tlet ! ="

theorem lex_of_printed_text :
    Printed printedKinds printedText.toList ∧ ∃ tokens, lex printedText = .ok tokens ∧
      tokens.map Token.kind = printedKinds ++ [.endOfInput] := by
  have hstring : Unescapes "\\\"\\\\//\n\\n".toList "\"\\//\n\n".toList :=
    .escape (by decide) (.escape (by decide) (.plain (by decide) (by decide)
      (.plain (by decide) (by decide) (.plain (by decide) (by decide)
        (.escape (by decide) .nil)))))
  have hnumber : Lexeme (.number (numberValue ['1'] ['5'])) ['1', '.', '5'] :=
    .decimal ⟨by decide, List.all_eq_true.mp rfl⟩ ⟨by decide, List.all_eq_true.mp rfl⟩
      (by unfold InRange; decide +kernel)
  have hname : Lexeme (.name "lets") "lets".toList :=
    .name (c := 'l') (by decide) (List.all_eq_true.mp (by decide)) (by intro k; cases k <;> decide)
  have hline : '\n' ∉ " \"x".toList := by decide
  have hcomment : Filler "// \"x\n".toList := .comment hline .nil
  have hprinted : Printed printedKinds printedText.toList :=
    .next (.string hstring) (by decide) (c := ' ') (by decide) hcomment <|
    .next (.mark (s := "/") (m := .slash) (by decide)) (by decide) (c := ' ') (by decide) .nil <|
    .next (.mark (s := "/") (m := .slash) (by decide)) (by decide) (c := ' ') (by decide) .nil <|
    .next hnumber (by decide) (c := ' ') (by decide) .nil <|
    .next (.mark (s := ".") (m := .dot) (by decide)) (by decide) (c := ' ') (by decide) .nil <|
    .next hname (by decide) (c := '\t') (by decide) .nil <|
    .next (.word (s := "let") (k := .letWord) (by decide)) (by decide) (c := ' ') (by decide) .nil <|
    .next (.mark (s := "!") (m := .bang) (by decide)) (by decide) (c := ' ') (by decide) .nil <|
    .last (.mark (s := "=") (m := .equal) (by decide)) (by decide)
  exact ⟨hprinted, lex_of_printed hprinted⟩

end Dam
