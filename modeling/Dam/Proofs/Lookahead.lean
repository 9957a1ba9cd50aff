import Dam.Proofs.Lexemes

/-!
# Where a lexeme ends

The scanner reads as far as it can, and looks ahead to know when to stop: past a name for
one more letter or digit, past a whole number for a point and a digit, past some marks for
an equals sign. `Apart` says that what stands behind a lexeme does not go on with it.

With this condition, being a lexeme is enough to be read as one (`scan_of_lexeme`), and
whatever the scanner reads meets it (`apart_of_scan`). It looks at no more than the next two
characters, so it still holds when the text is cut off behind the lexeme. In the same way,
trivia is passed over in front of whatever does not go on with it (`skipTrivia_of_trivia`).
-/

namespace Dam

/-! ## What stands behind a lexeme -/

/-- The text does not begin with a character that satisfies `p`. -/
def StopsAt (p : Char → Bool) (rest : List Char) : Prop := ∀ c ∈ rest.head?, p c = false

/-- With this character behind it, the mark would be a longer one, or begin a comment. -/
def Mark.goesOn : Mark → Char → Bool
  | .bang, c | .equal, c | .greater, c | .less, c => c == '='
  | .slash, c => c == '/'
  | _, _ => false

/-- `Apart kind lexeme rest`: the lexeme does not go on into the text behind it. -/
def Apart : TokenKind → List Char → List Char → Prop
  | .word _, _, rest | .name _, _, rest => StopsAt isNamePart rest
  | .mark m, _, rest => StopsAt m.goesOn rest
  | .number _, lexeme, rest => StopsAt isDigit rest ∧
      ('.' ∉ lexeme → ∀ d ds, rest = '.' :: d :: ds → isDigit d = false)
  | .string _, _, _ | .endOfInput, _, _ => True

theorem StopsAt.nil (p : Char → Bool) : StopsAt p [] := by
  intro c hc
  cases hc

theorem StopsAt.cons {p : Char → Bool} {c : Char} (h : p c = false) (cs : List Char) :
    StopsAt p (c :: cs) := by
  rintro d ⟨⟩
  exact h

theorem StopsAt.of_append {p : Char → Bool} {rest more : List Char}
    (h : StopsAt p (rest ++ more)) : StopsAt p rest := by
  cases rest with
  | nil => exact .nil p
  | cons c cs => exact h

theorem stopsAt_dropWhile (p : Char → Bool) (cs : List Char) : StopsAt p (cs.dropWhile p) := by
  intro c hc
  have hnot := List.head?_dropWhile_not p cs
  rw [hc] at hnot
  exact hnot

/-- A run of characters ends where the text behind it stops. -/
theorem StopsAt.takeWhile_append {p : Char → Bool} {row rest : List Char}
    (h : StopsAt p rest) (hrow : ∀ c ∈ row, p c = true) :
    (row ++ rest).takeWhile p = row ∧ (row ++ rest).dropWhile p = rest := by
  rw [List.takeWhile_append_of_pos hrow, List.dropWhile_append_of_pos hrow]
  cases rest with
  | nil => simp
  | cons c cs =>
      have hc : p c = false := h c rfl
      simp [hc]

/-- A text that is cut off does not go on where it did not before. -/
theorem Apart.of_append {kind : TokenKind} {lexeme rest more : List Char}
    (h : Apart kind lexeme (rest ++ more)) : Apart kind lexeme rest := by
  cases kind with
  | word | name | mark => exact StopsAt.of_append h
  | number =>
      refine ⟨h.1.of_append, fun hpoint d ds hrest => h.2 hpoint d (ds ++ more) ?_⟩
      rw [hrest]
      rfl
  | string | endOfInput => trivial

theorem apart_nil (kind : TokenKind) (lexeme : List Char) : Apart kind lexeme [] := by
  cases kind with
  | word | name | mark => exact .nil _
  | number => exact ⟨.nil _, nofun⟩
  | string | endOfInput => trivial

/-! ## Kinds of characters -/

theorem isDigit_iff {c : Char} : isDigit c = true ↔ 48 ≤ c.toNat ∧ c.toNat ≤ 57 := by
  simp only [isDigit, Bool.and_eq_true, decide_eq_true_eq]
  exact Iff.rfl

theorem isNameStart_iff {c : Char} : isNameStart c = true ↔
    (97 ≤ c.toNat ∧ c.toNat ≤ 122) ∨ (65 ≤ c.toNat ∧ c.toNat ≤ 90) ∨ c.toNat = 95 := by
  simp only [isNameStart, Bool.or_eq_true, Bool.and_eq_true, decide_eq_true_eq, beq_iff_eq,
    or_assoc, ← Char.toNat_inj]
  exact Iff.rfl

theorem toNat_of_isBlank {c : Char} (h : Text.isBlank c = true) :
    (9 ≤ c.toNat ∧ c.toNat ≤ 13) ∨ c.toNat = 32 ∨ 128 ≤ c.toNat := by
  simp only [Text.isBlank, Bool.or_eq_true, Bool.and_eq_true, decide_eq_true_eq, beq_iff_eq] at h
  omega

/-- A blank goes on with no lexeme. -/
theorem apart_of_isBlank {c : Char} (h : Text.isBlank c = true) (kind : TokenKind)
    (lexeme rest : List Char) : Apart kind lexeme (c :: rest) := by
  have hc := toNat_of_isBlank h
  have hdigit : isDigit c = false := by
    rw [← Bool.not_eq_true, isDigit_iff]
    omega
  have hpart : isNamePart c = false := by
    have hstart : isNameStart c = false := by
      rw [← Bool.not_eq_true, isNameStart_iff]
      omega
    rw [isNamePart, hstart, hdigit]
    rfl
  cases kind with
  | word | name => exact .cons hpart rest
  | mark m =>
      refine .cons (Bool.eq_false_iff.mpr fun hgo => ?_) rest
      cases m with
      | bang | equal | greater | less | slash =>
          obtain rfl := eq_of_beq hgo
          exact absurd h (by decide)
      | _ => cases hgo
  | number =>
      refine ⟨.cons hdigit rest, fun _ d ds hrest => ?_⟩
      obtain ⟨rfl, _⟩ := List.cons.inj hrest
      exact absurd h (by decide)
  | string | endOfInput => trivial

/-! ## The scanner reads what stands apart -/

/-- No mark begins with a quote, a digit or a letter. -/
theorem Mark.exists_text_eq (m : Mark) :
    ∃ c cs, m.text.toList = c :: cs ∧
      ¬(c = '\x22' ∨ isDigit c = true ∨ isNameStart c = true) := by
  cases m <;> exact ⟨_, _, rfl, by decide⟩

theorem scan_of_no_mark {c : Char} (h : c = '\x22' ∨ isDigit c = true ∨ isNameStart c = true)
    (cs : List Char) :
    scan c cs = if c = '\x22' then scanString ['\x22'] [] cs
      else if isDigit c then scanNumber c cs else scanName c cs := by
  have hfirst (m : Mark) (ds : List Char) : m.text.toList ≠ c :: ds := by
    intro htext
    obtain ⟨d, _, hd, hnot⟩ := m.exists_text_eq
    obtain ⟨rfl, _⟩ := List.cons.inj (hd.symm.trans htext)
    exact hnot h
  have hsingle : Mark.single? c = none :=
    Option.eq_none_iff_forall_ne_some.mpr fun m hm => hfirst m [] (Mark.text_of_single? hm)
  have hpaired : Mark.paired? c = none :=
    Option.eq_none_iff_forall_ne_some.mpr fun r hr => hfirst r.1 [] (Mark.text_of_paired? hr).1
  simp only [scan, hsingle, hpaired]
  rcases h with rfl | h | h
  · rfl
  · rw [if_pos h, if_pos h]
  · rw [if_pos h]

theorem isDigit_eq_false_of_isNameStart {c : Char} (h : isNameStart c = true) :
    isDigit c = false := by
  rw [isNameStart_iff] at h
  rw [← Bool.not_eq_true, isDigit_iff]
  omega

theorem scan_of_isNameStart {c : Char} (h : isNameStart c = true) (cs : List Char) :
    scan c cs = scanName c cs := by
  rw [scan_of_no_mark (.inr (.inr h)), if_neg, if_neg]
  · rw [isDigit_eq_false_of_isNameStart h]
    exact Bool.false_ne_true
  · rintro rfl
    exact absurd h (by decide)

theorem scan_of_isDigit {c : Char} (h : isDigit c = true) (cs : List Char) :
    scan c cs = scanNumber c cs := by
  rw [scan_of_no_mark (.inr (.inl h)), if_neg, if_pos h]
  rintro rfl
  exact absurd h (by decide)

theorem Keyword.ofText?_text (k : Keyword) : ofText? k.text = some k := by
  cases k <;> decide

theorem Keyword.ofText?_eq_none {s : String} (h : ∀ k : Keyword, k.text ≠ s) :
    ofText? s = none := by
  refine List.find?_eq_none.mpr fun k _ => ?_
  simpa using h k

/-- A keyword is spelled like a name. -/
theorem Keyword.exists_text_eq (k : Keyword) :
    ∃ c cs, k.text = String.ofList (c :: cs) ∧ isNameStart c = true ∧
      ∀ d ∈ cs, isNamePart d = true := by
  cases k <;> exact ⟨_, _, rfl, by decide, List.all_eq_true.mp (by decide)⟩

theorem scanName_word {c : Char} {cs rest : List Char} {k : Keyword}
    (hcs : ∀ d ∈ cs, isNamePart d = true) (hrest : StopsAt isNamePart rest)
    (hk : k.text = String.ofList (c :: cs)) :
    scanName c (cs ++ rest) = ⟨c :: cs, rest, .ok (.word k)⟩ := by
  obtain ⟨htake, hdrop⟩ := hrest.takeWhile_append hcs
  simp only [scanName, htake, hdrop, ← hk, Keyword.ofText?_text]

theorem scanName_name {c : Char} {cs rest : List Char}
    (hcs : ∀ d ∈ cs, isNamePart d = true) (hrest : StopsAt isNamePart rest)
    (hname : ∀ k : Keyword, k.text ≠ String.ofList (c :: cs)) :
    scanName c (cs ++ rest) = ⟨c :: cs, rest, .ok (.name (String.ofList (c :: cs)))⟩ := by
  obtain ⟨htake, hdrop⟩ := hrest.takeWhile_append hcs
  simp only [scanName, htake, hdrop, Keyword.ofText?_eq_none hname]

theorem scanPaired_alone {c : Char} {alone withEqual : Mark} {rest : List Char}
    (h : StopsAt (· == '=') rest) :
    scanPaired c alone withEqual rest = ⟨[c], rest, .ok (.mark alone)⟩ := by
  unfold scanPaired
  split
  · exact absurd (h '=' rfl) (by decide)
  · rfl

theorem numberToken_of_inRange {whole fraction : List Char} (text : List Char)
    (h : InRange (numberValue whole fraction)) :
    numberToken whole fraction text = .ok (.number (numberValue whole fraction)) :=
  if_neg (Nat.not_lt.mpr h)

theorem scanNumber_whole {c : Char} {cs rest : List Char} (hcs : ∀ d ∈ cs, isDigit d = true)
    (hrange : InRange (numberValue (c :: cs) [])) (hrest : StopsAt isDigit rest)
    (hpoint : ∀ d ds, rest = '.' :: d :: ds → isDigit d = false) :
    scanNumber c (cs ++ rest) = ⟨c :: cs, rest, .ok (.number (numberValue (c :: cs) []))⟩ := by
  obtain ⟨htake, hdrop⟩ := hrest.takeWhile_append hcs
  simp only [scanNumber, htake, hdrop, numberToken_of_inRange _ hrange]
  split
  · rename_i d ds
    rw [if_neg]
    rw [hpoint d ds rfl]
    exact Bool.false_ne_true
  · rfl

theorem scanNumber_decimal {c f : Char} {cs fs rest : List Char}
    (hcs : ∀ d ∈ cs, isDigit d = true) (hf : isDigit f = true) (hfs : ∀ d ∈ fs, isDigit d = true)
    (hrange : InRange (numberValue (c :: cs) (f :: fs))) (hrest : StopsAt isDigit rest) :
    scanNumber c (cs ++ '.' :: f :: fs ++ rest) =
      ⟨c :: cs ++ '.' :: f :: fs, rest, .ok (.number (numberValue (c :: cs) (f :: fs)))⟩ := by
  have hpoint : StopsAt isDigit ('.' :: f :: (fs ++ rest)) := .cons (by decide) _
  obtain ⟨htake, hdrop⟩ := hpoint.takeWhile_append hcs
  obtain ⟨htake', hdrop'⟩ := hrest.takeWhile_append hfs
  simp only [scanNumber, List.append_assoc, List.cons_append, htake, hdrop, if_pos hf, htake',
    hdrop', numberToken_of_inRange _ hrange]

/-- What is written between quotes is read up to the closing quote. -/
theorem scanString_of_unescapes {body value : List Char} (h : Unescapes body value)
    (read done rest : List Char) :
    scanString read done (body ++ '\x22' :: rest) =
      ⟨read.reverse ++ (body ++ ['\x22']), rest,
        .ok (.string (String.ofList (done.reverse ++ value)))⟩ := by
  induction h generalizing read done with
  | nil => simp [scanString]
  | @plain c body value hquote hslash _ ih =>
      rw [List.cons_append, scanString.eq_5 _ _ _ _ hquote (fun h => absurd h hslash)
        (fun _ _ h => absurd h hslash), ih]
      simp
  | @escape e c body value he _ ih =>
      rw [List.cons_append, List.cons_append, scanString]
      simp only [mem_escapeTable.mp he]
      rw [ih]
      simp

/-- **A lexeme that stands apart is read as such.** -/
theorem scan_of_lexeme {kind : TokenKind} {lexeme rest : List Char} (h : Lexeme kind lexeme)
    (hkind : kind ≠ .endOfInput) (hrest : Apart kind lexeme rest) :
    ∃ c cs, lexeme = c :: cs ∧ scan c (cs ++ rest) = ⟨lexeme, rest, .ok kind⟩ := by
  cases h with
  | @word s k hk =>
      obtain rfl : k.text = s := Keyword.mem_keywordTable.mp hk
      obtain ⟨c, cs, htext, hc, hcs⟩ := k.exists_text_eq
      refine ⟨c, cs, by rw [htext, String.toList_ofList], ?_⟩
      rw [scan_of_isNameStart hc, scanName_word hcs hrest htext, htext, String.toList_ofList]
  | name hc hcs hname =>
      have hother := fun k hk => hname k (Keyword.mem_keywordTable.mpr hk)
      exact ⟨_, _, rfl, by rw [scan_of_isNameStart hc, scanName_name hcs hrest hother]⟩
  | @mark s m hm =>
      obtain rfl : m.text = s := Mark.mem_markTable.mp hm
      cases m with
      | bang | equal | greater | less => exact ⟨_, [], rfl, scanPaired_alone hrest⟩
      | _ => exact ⟨_, _, rfl, rfl⟩
  | @whole ds hds hrange =>
      obtain ⟨c, cs, rfl⟩ := List.exists_cons_of_ne_nil hds.1
      have hall := List.forall_mem_cons.mp hds.2
      have hpoint : '.' ∉ c :: cs := fun hmem => absurd (hds.2 _ hmem) (by decide)
      refine ⟨c, cs, rfl, ?_⟩
      rw [scan_of_isDigit hall.1, scanNumber_whole hall.2 hrange hrest.1 (hrest.2 hpoint)]
  | @decimal ds fs hds hfs hrange =>
      obtain ⟨c, cs, rfl⟩ := List.exists_cons_of_ne_nil hds.1
      obtain ⟨f, fs, rfl⟩ := List.exists_cons_of_ne_nil hfs.1
      have hall := List.forall_mem_cons.mp hds.2
      have hall' := List.forall_mem_cons.mp hfs.2
      refine ⟨c, cs ++ '.' :: f :: fs, rfl, ?_⟩
      rw [scan_of_isDigit hall.1, scanNumber_decimal hall.2 hall'.1 hall'.2 hrange hrest.1]
  | @string body value hbody =>
      refine ⟨'\x22', body ++ ['\x22'], rfl, ?_⟩
      rw [scan_of_no_mark (.inl rfl), if_pos rfl, List.append_assoc, List.singleton_append,
        scanString_of_unescapes hbody]
      rfl
  | endOfInput => exact absurd rfl hkind

/-! ## What the scanner reads stands apart -/

theorem apart_of_scanNumber (c : Char) (cs : List Char) {kind : TokenKind}
    (h : (scanNumber c cs).outcome = .ok kind) :
    Apart kind (scanNumber c cs).lexeme (scanNumber c cs).rest := by
  have hwhole := stopsAt_dropWhile isDigit cs
  unfold scanNumber at h ⊢
  dsimp only at h ⊢
  split at h
  · rename_i d ds hds
    rw [hds] at hwhole
    split at h
    · rename_i hd
      obtain ⟨rfl, _⟩ := numberToken_eq_ok h
      rw [if_pos hd]
      exact ⟨stopsAt_dropWhile isDigit ds, fun hpoint => absurd (by simp) hpoint⟩
    · rename_i hd
      obtain ⟨rfl, _⟩ := numberToken_eq_ok h
      rw [if_neg hd]
      refine ⟨hwhole, fun _ e es he => ?_⟩
      obtain ⟨rfl, -⟩ : d = e ∧ ds = es := by simpa using he
      exact Bool.eq_false_iff.mpr hd
  · rename_i hds
    obtain ⟨rfl, _⟩ := numberToken_eq_ok h
    exact ⟨hwhole, fun _ d ds hrest => absurd hrest (hds d ds)⟩

theorem apart_of_scanPaired {c : Char} {alone withEqual : Mark} {kind : TokenKind}
    (h : Mark.paired? c = some (alone, withEqual)) (cs : List Char)
    (hk : (scanPaired c alone withEqual cs).outcome = .ok kind) :
    Apart kind (scanPaired c alone withEqual cs).lexeme (scanPaired c alone withEqual cs).rest := by
  have hgo : (∀ d, alone.goesOn d = (d == '=')) ∧ ∀ d, withEqual.goesOn d = false := by
    unfold Mark.paired? at h
    split at h <;> cases h <;> exact ⟨fun _ => rfl, fun _ => rfl⟩
  unfold scanPaired at hk ⊢
  split at hk
  · cases hk
    exact fun d _ => hgo.2 d
  · rename_i hcs
    cases hk
    refine fun d hd => ?_
    rw [hgo.1 d, beq_eq_false_iff_ne]
    rintro rfl
    obtain ⟨ds, rfl⟩ := List.head?_eq_some_iff.mp hd
    exact hcs ds rfl

theorem apart_of_single? {c : Char} {cs : List Char} {m : Mark} (h : Mark.single? c = some m)
    (hcomment : ∀ ds, c :: cs ≠ '/' :: '/' :: ds) : Apart (.mark m) [c] cs := by
  intro d hd
  obtain ⟨ds, rfl⟩ := List.head?_eq_some_iff.mp hd
  unfold Mark.single? at h
  split at h
  case h_11 =>
    cases h
    refine beq_eq_false_iff_ne.mpr ?_
    rintro rfl
    exact hcomment ds rfl
  all_goals cases h
  all_goals rfl

theorem apart_of_scanName (c : Char) (cs : List Char) {kind : TokenKind}
    (h : (scanName c cs).outcome = .ok kind) :
    Apart kind (scanName c cs).lexeme (scanName c cs).rest := by
  have hstop := stopsAt_dropWhile isNamePart cs
  unfold scanName at h
  dsimp only at h
  split at h <;> cases h <;> exact hstop

/-- **What the scanner reads stands apart**, if it was not led into a comment. -/
theorem apart_of_scan {c : Char} {cs : List Char} {kind : TokenKind}
    (h : (scan c cs).outcome = .ok kind) (hcomment : ∀ ds, c :: cs ≠ '/' :: '/' :: ds) :
    Apart kind (scan c cs).lexeme (scan c cs).rest := by
  unfold scan at h ⊢
  cases hm : Mark.single? c with
  | some m =>
      simp only [hm] at h ⊢
      cases h
      exact apart_of_single? hm hcomment
  | none =>
      simp only [hm] at h ⊢
      cases hp : Mark.paired? c with
      | some r =>
          simp only [hp] at h ⊢
          exact apart_of_scanPaired hp cs h
      | none =>
          simp only [hp] at h ⊢
          split at h
          · obtain ⟨_, _, _, rfl, _⟩ := unescapes_of_scanString h
            trivial
          · rename_i hquote
            rw [if_neg hquote]
            split at h
            · rename_i hdigit
              rw [if_pos hdigit]
              exact apart_of_scanNumber c cs h
            · rename_i hdigit
              rw [if_neg hdigit]
              split at h
              · rename_i hname
                rw [if_pos hname]
                exact apart_of_scanName c cs h
              · cases h

/-! ## Trivia -/

/-- The text begins with neither a blank nor a comment. -/
structure NoTrivia (rest : List Char) : Prop where
  blank : StopsAt Text.isBlank rest
  comment : ∀ ds, rest ≠ '/' :: '/' :: ds

theorem noTrivia_nil : NoTrivia [] := ⟨.nil _, nofun⟩

theorem not_isBlank_of_isNamePart {c : Char} (h : isNamePart c = true) :
    Text.isBlank c = false := by
  rw [← Bool.not_eq_true]
  intro hblank
  have hc := toNat_of_isBlank hblank
  rw [isNamePart, Bool.or_eq_true, isNameStart_iff, isDigit_iff] at h
  omega

theorem stopsAt_isBlank_of_digits {ds : List Char} (h : Digits ds) (cs : List Char) :
    StopsAt Text.isBlank (ds ++ cs) := by
  obtain ⟨c, ds, rfl⟩ := List.exists_cons_of_ne_nil h.1
  have hc : isDigit c = true := h.2 c List.mem_cons_self
  exact .cons (not_isBlank_of_isNamePart (by rw [isNamePart, hc, Bool.or_true])) _

/-- No lexeme begins with a blank. -/
theorem Lexeme.stopsAt_isBlank {kind : TokenKind} {lexeme : List Char} (h : Lexeme kind lexeme) :
    StopsAt Text.isBlank lexeme := by
  have hname {c : Char} (cs : List Char) (hc : isNameStart c = true) :
      StopsAt Text.isBlank (c :: cs) :=
    .cons (not_isBlank_of_isNamePart (by rw [isNamePart, hc, Bool.true_or])) cs
  cases h with
  | @word s k hk =>
      obtain rfl : k.text = s := Keyword.mem_keywordTable.mp hk
      obtain ⟨c, cs, htext, hc, -⟩ := k.exists_text_eq
      rw [htext, String.toList_ofList]
      exact hname cs hc
  | name hc _ _ => exact hname _ hc
  | @mark s m hm =>
      obtain rfl : m.text = s := Mark.mem_markTable.mp hm
      cases m <;> exact .cons (by decide) _
  | whole hds _ => simpa using stopsAt_isBlank_of_digits hds []
  | decimal hds _ _ => exact stopsAt_isBlank_of_digits hds _
  | string _ => exact .cons (by decide) _
  | endOfInput => exact .nil _

/-- What begins with a lexeme that stands apart is no trivia. -/
theorem Lexeme.noTrivia {kind : TokenKind} {lexeme rest : List Char} (h : Lexeme kind lexeme)
    (hkind : kind ≠ .endOfInput) (hrest : Apart kind lexeme rest) : NoTrivia (lexeme ++ rest) := by
  obtain ⟨c, cs, rfl, hscan⟩ := scan_of_lexeme h hkind hrest
  refine ⟨h.stopsAt_isBlank, fun ds hds => ?_⟩
  obtain ⟨rfl, hcs⟩ : c = '/' ∧ cs ++ rest = '/' :: ds := List.cons.inj hds
  -- two slashes would be scanned as a slash with a slash behind it
  rw [hcs] at hscan
  have hslash : scan '/' ('/' :: ds) = ⟨['/'], '/' :: ds, .ok (.mark .slash)⟩ := rfl
  rw [hslash, Scan.mk.injEq] at hscan
  obtain ⟨-, rfl, hkind⟩ := hscan
  obtain rfl := Except.ok.inj hkind
  exact absurd (hrest '/' rfl) (by decide)

namespace Cursor

theorem dropWhile_append {p : Char → Bool} (row : List Char) {rest : List Char}
    (hrow : ∀ c ∈ row, p c = true) (hrest : StopsAt p rest) (q : Position) :
    dropWhile p ⟨row ++ rest, q⟩ = ⟨rest, q.afterAll row⟩ := by
  obtain ⟨htake, hdrop⟩ := hrest.takeWhile_append hrow
  rw [dropWhile, htake, hdrop]

theorem skipTrivia_blank {c : Char} (h : Text.isBlank c = true) (cs : List Char) (q : Position) :
    skipTrivia ⟨c :: cs, q⟩ = skipTrivia ⟨cs, q.after c⟩ := by
  have hdrop : dropWhile Text.isBlank ⟨c :: cs, q⟩ = dropWhile Text.isBlank ⟨cs, q.after c⟩ := by
    simp [dropWhile, h, Position.afterAll]
  rw [skipTrivia.eq_def ⟨c :: cs, q⟩, skipTrivia.eq_def ⟨cs, q.after c⟩, hdrop]

theorem skipTrivia_of_noTrivia {rest : List Char} (h : NoTrivia rest) (q : Position) :
    skipTrivia ⟨rest, q⟩ = ⟨rest, q⟩ := by
  have hdrop : dropWhile Text.isBlank ⟨rest, q⟩ = ⟨rest, q⟩ :=
    dropWhile_append [] nofun h.blank q
  rw [skipTrivia, hdrop]
  split
  · rename_i ds hds
    exact absurd hds (h.comment ds)
  · rfl

theorem skipTrivia_comment {text rest : List Char} (htext : '\n' ∉ text)
    (hrest : ∀ c, rest.head? = some c → c = '\n') (q : Position) :
    skipTrivia ⟨'/' :: '/' :: (text ++ rest), q⟩ =
      skipTrivia ⟨rest, q.afterAll ('/' :: '/' :: text)⟩ := by
  have hblank : StopsAt Text.isBlank ('/' :: '/' :: (text ++ rest)) := .cons (by decide) _
  have hdrop : dropWhile Text.isBlank ⟨'/' :: '/' :: (text ++ rest), q⟩ =
      ⟨'/' :: '/' :: (text ++ rest), q⟩ := dropWhile_append [] nofun hblank q
  have hline : dropWhile (· ≠ '\n') ⟨'/' :: '/' :: (text ++ rest), q⟩ =
      ⟨rest, q.afterAll ('/' :: '/' :: text)⟩ := by
    refine dropWhile_append ('/' :: '/' :: text) (fun c hc => ?_) (fun c hc => ?_) q
    · refine decide_eq_true ?_
      rintro rfl
      simp [htext] at hc
    · simpa using hrest c hc
  rw [skipTrivia, hdrop, ← hline]
  split
  · rfl
  · rename_i hno
    exact absurd rfl (hno _)

theorem noTrivia_skipTrivia (k : Cursor) : NoTrivia k.skipTrivia.rest := by
  fun_induction skipTrivia k with
  | case1 k cs hrest ih => exact ih
  | case2 k hrest => exact ⟨stopsAt_dropWhile _ _, hrest⟩

/-- **Trivia is passed over**, in front of what is none. -/
theorem skipTrivia_of_trivia {gap rest : List Char} (h : Trivia gap rest) (hrest : NoTrivia rest)
    (q : Position) : skipTrivia ⟨gap ++ rest, q⟩ = ⟨rest, q.afterAll gap⟩ := by
  induction h generalizing q with
  | nil => exact skipTrivia_of_noTrivia hrest q
  | blank hc _ ih =>
      rw [List.cons_append, skipTrivia_blank hc, ih hrest]
      rfl
  | comment htext hhead _ ih =>
      rw [List.cons_append, List.cons_append, List.append_assoc, skipTrivia_comment htext hhead,
        ih hrest, ← Position.afterAll_append]
      rfl

end Cursor

end Dam
