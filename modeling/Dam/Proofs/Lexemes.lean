import Dam.Token.Lexer

/-!
# Lexemes

What the characters of a token may be, said without the scanner: a keyword and a mark
have one spelling, a name is a word that is no keyword, a number is written in digits
with or without a fraction, and a string stands between quotes, with escapes in it.
Spellings and escapes are written out in tables. Between tokens there is trivia: blanks,
and comments that run to the end of their line.

The scanner goes by the same tables (`Keyword.mem_keywordTable`, `Mark.mem_markTable`,
`mem_escapeTable`). It reads lexemes (`lexeme_of_scan`), and what it passes over in front
of them is trivia (`skipTrivia_passes`).
-/

namespace Dam

/-! ## What a token looks like -/

/-- A row of digits, at least one. -/
def Digits (cs : List Char) : Prop := cs ≠ [] ∧ ∀ c ∈ cs, isDigit c = true

/-- The number that is written as `whole.fraction`. -/
def numberValue (whole fraction : List Char) : Binary64 :=
  Binary64.ofDecimal false (digitsValue (whole ++ fraction)) (-(fraction.length : Int))

/-- Numbers that the target machine can hold. -/
def InRange (x : Binary64) : Prop := x.magnitude ≤ Binary64.maxBinary32.magnitude

/-- The keywords and their spellings. -/
def keywordTable : List (String × Keyword) :=
  [("let", .letWord), ("print", .printWord), ("read", .readWord), ("if", .ifWord),
    ("else", .elseWord), ("while", .whileWord), ("and", .andWord), ("or", .orWord),
    ("true", .trueWord), ("false", .falseWord), ("null", .nullWord), ("for", .forWord),
    ("return", .returnWord), ("to", .toWord)]

/-- The marks and their spellings. -/
def markTable : List (String × Mark) :=
  [("(", .leftParen), (")", .rightParen), ("\x7b", .leftBrace), ("\x7d", .rightBrace),
    (",", .comma), (".", .dot), (";", .semicolon), ("-", .minus), ("+", .plus), ("*", .star),
    ("/", .slash), ("!", .bang), ("!=", .bangEqual), ("=", .equal), ("==", .equalEqual),
    (">", .greater), (">=", .greaterEqual), ("<", .less), ("<=", .lessEqual)]

/-- What stands behind a backslash in a string, and the character that is meant. -/
def escapeTable : List (Char × Char) :=
  [('n', '\n'), ('t', '\t'), ('r', '\r'), ('\x5c', '\x5c'), ('\x22', '\x22'), ('0', '\x00')]

/-- `Unescapes body value`: between quotes, the characters `body` stand for `value`. -/
inductive Unescapes : List Char → List Char → Prop
  | nil : Unescapes [] []
  | plain {c : Char} {body value : List Char} :
      c ≠ '\x22' → c ≠ '\x5c' → Unescapes body value → Unescapes (c :: body) (c :: value)
  | escape {e c : Char} {body value : List Char} :
      (e, c) ∈ escapeTable → Unescapes body value → Unescapes ('\x5c' :: e :: body) (c :: value)

/-- `Lexeme kind cs`: the characters `cs` are a token of this kind. The end has no characters. -/
inductive Lexeme : TokenKind → List Char → Prop
  | word {s : String} {k : Keyword} : (s, k) ∈ keywordTable → Lexeme (.word k) s.toList
  | mark {s : String} {m : Mark} : (s, m) ∈ markTable → Lexeme (.mark m) s.toList
  | name {c : Char} {cs : List Char} :
      isNameStart c = true → (∀ d ∈ cs, isNamePart d = true) →
      (∀ k : Keyword, (String.ofList (c :: cs), k) ∉ keywordTable) →
      Lexeme (.name (String.ofList (c :: cs))) (c :: cs)
  | whole {ds : List Char} :
      Digits ds → InRange (numberValue ds []) → Lexeme (.number (numberValue ds [])) ds
  | decimal {ds fs : List Char} :
      Digits ds → Digits fs → InRange (numberValue ds fs) →
      Lexeme (.number (numberValue ds fs)) (ds ++ '.' :: fs)
  | string {body value : List Char} :
      Unescapes body value →
      Lexeme (.string (String.ofList value)) ('\x22' :: (body ++ ['\x22']))
  | endOfInput : Lexeme .endOfInput []

/-! ## The scanner reads lexemes -/

theorem Keyword.mem_keywordTable {s : String} {k : Keyword} :
    (s, k) ∈ keywordTable ↔ k.text = s := by
  cases k <;> simp [keywordTable, text, eq_comm]

theorem Mark.mem_markTable {s : String} {m : Mark} : (s, m) ∈ markTable ↔ m.text = s := by
  cases m <;> simp [markTable, text, eq_comm]

theorem mem_escapeTable {e c : Char} : (e, c) ∈ escapeTable ↔ unescape? e = some c := by
  constructor
  · intro h
    simp only [escapeTable, List.mem_cons, Prod.mk.injEq, List.not_mem_nil, or_false] at h
    rcases h with ⟨rfl, rfl⟩ | ⟨rfl, rfl⟩ | ⟨rfl, rfl⟩ | ⟨rfl, rfl⟩ | ⟨rfl, rfl⟩ | ⟨rfl, rfl⟩ <;> rfl
  · intro h
    unfold unescape? at h
    split at h <;> cases h <;> simp [escapeTable]

theorem Keyword.mem_all (k : Keyword) : k ∈ all := by
  cases k <;> decide

theorem Keyword.text_of_ofText? {s : String} {k : Keyword} (h : ofText? s = some k) :
    k.text = s := by
  simpa using List.find?_some h

theorem Keyword.text_ne_of_ofText? {s : String} (h : ofText? s = none) (k : Keyword) :
    k.text ≠ s := by
  simpa using List.find?_eq_none.mp h k k.mem_all

theorem Mark.text_of_single? {c : Char} {m : Mark} (h : single? c = some m) :
    m.text.toList = [c] := by
  unfold single? at h
  split at h <;> cases h <;> rfl

theorem Mark.text_of_paired? {c : Char} {alone withEqual : Mark}
    (h : paired? c = some (alone, withEqual)) :
    alone.text.toList = [c] ∧ withEqual.text.toList = [c, '='] := by
  unfold paired? at h
  split at h <;> cases h <;> exact ⟨rfl, rfl⟩

theorem lexeme_of_scanPaired {c : Char} {alone withEqual : Mark} {kind : TokenKind}
    (h : Mark.paired? c = some (alone, withEqual)) (cs : List Char)
    (hk : (scanPaired c alone withEqual cs).outcome = .ok kind) :
    Lexeme kind (scanPaired c alone withEqual cs).lexeme := by
  obtain ⟨halone, hequal⟩ := Mark.text_of_paired? h
  unfold scanPaired at hk ⊢
  split at hk
  · cases hk
    exact hequal ▸ .mark (Mark.mem_markTable.mpr rfl)
  · cases hk
    exact halone ▸ .mark (Mark.mem_markTable.mpr rfl)

/-- What a string reads from some place on, up to and with the closing quote. -/
theorem unescapes_of_scanString {read value cs : List Char} {kind : TokenKind}
    (h : (scanString read value cs).outcome = .ok kind) :
    ∃ body content, Unescapes body content ∧
      kind = .string (String.ofList (value.reverse ++ content)) ∧
      (scanString read value cs).lexeme = read.reverse ++ (body ++ ['\x22']) := by
  fun_induction scanString read value cs with
  | case1 => cases h
  | case2 read value cs =>
      cases h
      exact ⟨[], [], .nil, by simp, by simp⟩
  | case3 => cases h
  | case4 read value e cs c hc ih =>
      obtain ⟨body, content, hb, hkind, hlexeme⟩ := ih h
      exact ⟨'\x5c' :: e :: body, c :: content, .escape (mem_escapeTable.mpr hc) hb, by simpa using hkind,
        by simpa using hlexeme⟩
  | case5 => cases h
  | case6 read value c cs hquote hlast hescape ih =>
      obtain ⟨body, content, hb, hkind, hlexeme⟩ := ih h
      refine ⟨c :: body, c :: content, .plain ?_ ?_ hb, by simpa using hkind,
        by simpa using hlexeme⟩
      · exact hquote
      · rintro rfl
        cases cs with
        | nil => exact hlast rfl rfl
        | cons d ds => exact hescape d ds rfl rfl

theorem numberToken_eq_ok {whole fraction text : List Char} {kind : TokenKind}
    (h : numberToken whole fraction text = .ok kind) :
    kind = .number (numberValue whole fraction) ∧ InRange (numberValue whole fraction) := by
  unfold numberToken at h
  dsimp only at h
  split at h
  · cases h
  · rename_i hle
    cases h
    exact ⟨rfl, Nat.le_of_not_lt hle⟩

theorem digits_takeWhile {c : Char} (hc : isDigit c = true) (cs : List Char) :
    Digits (c :: cs.takeWhile isDigit) := by
  refine ⟨by simp, fun d hd => ?_⟩
  rcases List.mem_cons.mp hd with rfl | hd
  · exact hc
  · exact List.all_eq_true.mp List.all_takeWhile d hd

theorem lexeme_of_scanNumber {c : Char} (hc : isDigit c = true) (cs : List Char)
    {kind : TokenKind} (h : (scanNumber c cs).outcome = .ok kind) :
    Lexeme kind (scanNumber c cs).lexeme := by
  have hwhole := digits_takeWhile hc cs
  unfold scanNumber at h ⊢
  dsimp only at h ⊢
  split at h
  · rename_i d ds _
    split at h
    · rename_i hd
      obtain ⟨rfl, hrange⟩ := numberToken_eq_ok h
      rw [if_pos hd]
      exact .decimal hwhole (digits_takeWhile hd ds) hrange
    · rename_i hd
      obtain ⟨rfl, hrange⟩ := numberToken_eq_ok h
      rw [if_neg hd]
      exact .whole hwhole hrange
  · obtain ⟨rfl, hrange⟩ := numberToken_eq_ok h
    exact .whole hwhole hrange

theorem lexeme_of_scanName {c : Char} (hc : isNameStart c = true) (cs : List Char)
    {kind : TokenKind} (h : (scanName c cs).outcome = .ok kind) :
    Lexeme kind (scanName c cs).lexeme := by
  unfold scanName at h ⊢
  dsimp only at h ⊢
  cases hk : Keyword.ofText? (String.ofList (c :: cs.takeWhile isNamePart)) with
  | some k =>
      rw [hk] at h
      cases h
      have htext := congrArg String.toList (Keyword.text_of_ofText? hk)
      rw [String.toList_ofList] at htext
      exact htext ▸ .word (Keyword.mem_keywordTable.mpr rfl)
  | none =>
      rw [hk] at h
      cases h
      exact .name hc (fun d hd => List.all_eq_true.mp List.all_takeWhile d hd)
        fun k hmem => Keyword.text_ne_of_ofText? hk k (Keyword.mem_keywordTable.mp hmem)

/-- **The scanner reads lexemes.** -/
theorem lexeme_of_scan {c : Char} {cs : List Char} {kind : TokenKind}
    (h : (scan c cs).outcome = .ok kind) : Lexeme kind (scan c cs).lexeme := by
  unfold scan at h ⊢
  cases hm : Mark.single? c with
  | some m =>
      simp only [hm] at h ⊢
      cases h
      exact Mark.text_of_single? hm ▸ .mark (Mark.mem_markTable.mpr rfl)
  | none =>
      simp only [hm] at h ⊢
      cases hp : Mark.paired? c with
      | some r =>
          simp only [hp] at h ⊢
          exact lexeme_of_scanPaired hp cs h
      | none =>
          simp only [hp] at h ⊢
          split at h
          · rename_i hquote
            subst hquote
            obtain ⟨body, content, hb, rfl, hlexeme⟩ := unescapes_of_scanString h
            rw [if_pos rfl, hlexeme]
            exact .string hb
          · rename_i hquote
            rw [if_neg hquote]
            split at h
            · rename_i hdigit
              rw [if_pos hdigit]
              exact lexeme_of_scanNumber hdigit cs h
            · rename_i hdigit
              rw [if_neg hdigit]
              split at h
              · rename_i hname
                rw [if_pos hname]
                exact lexeme_of_scanName hname cs h
              · cases h

/-! ## Between tokens -/

/--
`Trivia gap rest`: in front of `rest`, the characters `gap` are blanks and comments. A
comment goes on until a line feed follows, or nothing at all.
-/
inductive Trivia : List Char → List Char → Prop
  | nil {rest : List Char} : Trivia [] rest
  | blank {c : Char} {gap rest : List Char} :
      Text.isBlank c = true → Trivia gap rest → Trivia (c :: gap) rest
  | comment {text gap rest : List Char} :
      '\n' ∉ text → (∀ c, (gap ++ rest).head? = some c → c = '\n') → Trivia gap rest →
      Trivia ('/' :: '/' :: (text ++ gap)) rest

theorem Trivia.blanks {bs gap rest : List Char} (hb : ∀ c ∈ bs, Text.isBlank c = true)
    (h : Trivia gap rest) : Trivia (bs ++ gap) rest := by
  induction bs with
  | nil => exact h
  | cons c bs ih =>
      exact .blank (hb c List.mem_cons_self) (ih fun d hd => hb d (List.mem_cons_of_mem _ hd))

/-- A comment in front of trivia: the rest of its line. -/
theorem Trivia.line {gap rest : List Char} (cs : List Char) (h : Trivia gap rest)
    (hrest : gap ++ rest = ('/' :: '/' :: cs).dropWhile (· ≠ '\n')) :
    Trivia (('/' :: '/' :: cs).takeWhile (· ≠ '\n') ++ gap) rest := by
  have htake : ('/' :: '/' :: cs).takeWhile (· ≠ '\n') =
      '/' :: '/' :: cs.takeWhile (· ≠ '\n') := by simp
  rw [htake]
  refine .comment (fun hmem => ?_) (fun c hc => ?_) h
  · simpa using List.all_eq_true.mp List.all_takeWhile _ hmem
  · have hhead := List.head?_dropWhile_not (· ≠ '\n') ('/' :: '/' :: cs)
    rw [← hrest, hc] at hhead
    simpa using hhead

theorem Position.afterAll_append (p : Position) (a b : List Char) :
    p.afterAll (a ++ b) = (p.afterAll a).afterAll b :=
  List.foldl_append

namespace Cursor

/-- The cursor has passed the characters `cs`. -/
structure Passes (k : Cursor) (cs : List Char) (k' : Cursor) : Prop where
  rest : k.rest = cs ++ k'.rest
  position : k'.position = k.position.afterAll cs

theorem Passes.trans {k k₁ k₂ : Cursor} {a b : List Char} (h₁ : k.Passes a k₁)
    (h₂ : k₁.Passes b k₂) : k.Passes (a ++ b) k₂ := by
  refine ⟨?_, ?_⟩
  · rw [h₁.rest, h₂.rest, List.append_assoc]
  · rw [h₂.position, h₁.position, Position.afterAll_append]

theorem passes_dropWhile (p : Char → Bool) (k : Cursor) :
    k.Passes (k.rest.takeWhile p) (k.dropWhile p) :=
  ⟨List.takeWhile_append_dropWhile.symm, rfl⟩

/-- What is passed over in front of a token is trivia. -/
theorem skipTrivia_passes (k : Cursor) :
    ∃ gap, k.Passes gap k.skipTrivia ∧ Trivia gap k.skipTrivia.rest := by
  have hblank : ∀ k : Cursor, ∀ c ∈ k.rest.takeWhile Text.isBlank, Text.isBlank c = true :=
    fun k c hc => List.all_eq_true.mp List.all_takeWhile c hc
  fun_induction skipTrivia k with
  | case1 k cs hrest ih =>
      obtain ⟨gap, hpass, htrivia⟩ := ih
      have hcomment := passes_dropWhile (· ≠ '\n') (k.dropWhile Text.isBlank)
      refine ⟨_, ((passes_dropWhile _ k).trans hcomment).trans hpass, ?_⟩
      rw [hrest, List.append_assoc]
      refine .blanks (hblank k) ?_
      exact .line cs htrivia (by rw [← hrest]; exact hpass.rest.symm)
  | case2 k hrest => exact ⟨_, passes_dropWhile _ k, by simpa using Trivia.blanks (hblank k) .nil⟩

end Cursor

end Dam
