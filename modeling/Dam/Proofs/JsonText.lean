import Dam.Proofs.Escapes
import Dam.Proofs.JsonTokens
import Dam.Proofs.Lookahead

/-!
# The text of a JSON value

A text is written for tokens if it consists of their texts with white space anywhere between
them, and no number goes on into what stands behind it (`Written`). Such a text is read
as these tokens. Both layouts of a value are written for its tokens, so the value is read
back from either of them.
-/

namespace Dam.Json

/-! ## Strings -/

/-- How a character is written inside quotes. -/
theorem escape_cases (c : Char) :
    (∃ e, (escape c).toList = ['\x5c', e] ∧ unescape? e = some c ∧ e ≠ 'u') ∨
      (c.toNat < 32 ∧ (escape c).toList =
        ['\x5c', 'u', '0', '0', hexDigit (c.toNat / 16), hexDigit (c.toNat % 16)]) ∨
      ((escape c).toList = [c] ∧ 32 ≤ c.toNat ∧ c ≠ '\x5c' ∧ c ≠ '\x22') := by
  unfold escape
  split
  · exact .inl ⟨'\x22', rfl, rfl, by decide⟩
  · exact .inl ⟨'\x5c', rfl, rfl, by decide⟩
  · exact .inl ⟨'n', rfl, rfl, by decide⟩
  · exact .inl ⟨'t', rfl, rfl, by decide⟩
  · exact .inl ⟨'r', rfl, rfl, by decide⟩
  · exact .inl ⟨'b', rfl, rfl, by decide⟩
  · exact .inl ⟨'f', rfl, rfl, by decide⟩
  · rename_i hquote hbackslash _ _ _ _ _
    by_cases hlow : c.toNat < 32
    · refine .inr (.inl ⟨hlow, ?_⟩)
      rw [if_pos hlow, String.toList_push, String.toList_push]
      rfl
    · refine .inr (.inr ⟨?_, by omega, hbackslash, hquote⟩)
      rw [if_neg hlow, String.toList_singleton]

theorem stringUnit?_plain {c : Char} (hlow : 32 ≤ c.toNat) (hbackslash : c ≠ '\x5c')
    (cs : List Char) : stringUnit? (c :: cs) = some (c.toNat, cs) := by
  unfold stringUnit?
  split
  · rename_i heq
    cases heq
  · rename_i heq
    cases heq
    exact absurd rfl hbackslash
  · rename_i heq
    cases heq
    exact absurd rfl hbackslash
  · rename_i heq
    cases heq
    rw [if_neg]
    rintro (hc | hc)
    · omega
    · exact hbackslash hc

theorem hexUnit?_low {n : Nat} (h : n < 32) (cs : List Char) :
    hexUnit? ('0' :: '0' :: hexDigit (n / 16) :: hexDigit (n % 16) :: cs) = some (n, cs) := by
  have hhigh : n / 16 < 16 := by omega
  have hlow : n % 16 < 16 := by omega
  have hzero : hexValue? '0' = some 0 := rfl
  simp only [hexUnit?, hzero, hexValue?_hexDigit hhigh, hexValue?_hexDigit hlow,
    Option.bind_eq_bind, Option.bind_some]
  congr 2
  omega

theorem stringUnit?_short {e c : Char} (he : e ≠ 'u') (h : unescape? e = some c)
    (cs : List Char) : stringUnit? ('\x5c' :: e :: cs) = some (c.toNat, cs) := by
  unfold stringUnit?
  split
  · rename_i heq
    cases heq
  · rename_i heq
    cases heq
    exact absurd rfl he
  · rename_i heq
    cases heq
    rw [h]
    rfl
  · rename_i hshort heq
    cases heq
    exact (hshort e cs rfl rfl).elim

theorem readUnits_of_stringUnit? {c : Char} {cs rest : List Char} {n : Nat} (done : List Nat)
    (hquote : c ≠ '\x22') (h : stringUnit? (c :: cs) = some (n, rest)) :
    readUnits done (c :: cs) = readUnits (n :: done) rest := by
  rw [readUnits, if_neg hquote]
  split
  · rename_i hnone
    rw [h] at hnone
    cases hnone
  · rename_i n' rest' hsome
    rw [h] at hsome
    cases hsome
    rfl

theorem readUnits_escape (done : List Nat) (c : Char) (cs : List Char) :
    readUnits done ((escape c).toList ++ cs) = readUnits (c.toNat :: done) cs := by
  rcases escape_cases c with ⟨e, htext, hc, he⟩ | ⟨hlow, htext⟩ | ⟨htext, hlow, hbackslash, hquote⟩
  · rw [htext]
    exact readUnits_of_stringUnit? done (by decide) (stringUnit?_short he hc cs)
  · rw [htext]
    exact readUnits_of_stringUnit? done (by decide) (hexUnit?_low hlow cs)
  · rw [htext]
    exact readUnits_of_stringUnit? done hquote (stringUnit?_plain hlow hbackslash cs)

/-- Each character is one unit, up to the closing quote. -/
theorem readUnits_text (done : List Nat) (cs rest : List Char) :
    readUnits done (cs.flatMap (fun c => (escape c).toList) ++ '\x22' :: rest) =
      some (done.reverse ++ cs.map Char.toNat, rest) := by
  induction cs generalizing done with
  | nil =>
      rw [List.flatMap_nil, List.nil_append, readUnits, if_pos rfl, List.map_nil, List.append_nil]
  | cons c cs ih =>
      rw [List.flatMap_cons, List.append_assoc, readUnits_escape, ih, List.reverse_cons,
        List.append_assoc]
      rfl

/-- The numbers of characters are no halves of pairs. -/
theorem joinUnits?_text (done cs : List Char) :
    joinUnits? done (cs.map Char.toNat) = some (String.ofList (done.reverse ++ cs)) := by
  induction cs generalizing done with
  | nil => rw [List.map_nil, joinUnits?, List.append_nil]
  | cons c cs ih =>
      have hvalid : c.toNat < 0xD800 ∨ (0xDFFF < c.toNat ∧ c.toNat < 0x110000) := c.valid
      have hhigh : isHighSurrogate c.toNat = false := by
        rw [isHighSurrogate, Bool.and_eq_false_iff, decide_eq_false_iff_not,
          decide_eq_false_iff_not]
        omega
      have hlow : isLowSurrogate c.toNat = false := by
        rw [isLowSurrogate, Bool.and_eq_false_iff, decide_eq_false_iff_not,
          decide_eq_false_iff_not]
        omega
      rw [List.map_cons, joinUnits?.eq_def]
      simp only [hhigh, hlow, Bool.false_eq_true, if_false, Char.ofNat_toNat]
      rw [ih, List.reverse_cons, List.append_assoc]
      rfl

theorem toList_quote (s : String) :
    (quote s).toList = '\x22' :: (s.toList.flatMap (fun c => (escape c).toList) ++ ['\x22']) := by
  have hfold : ∀ (cs : List Char) (acc : String),
      (cs.foldl (fun acc c => acc ++ escape c) acc).toList =
        acc.toList ++ cs.flatMap (fun c => (escape c).toList) := by
    intro cs
    induction cs with
    | nil => simp
    | cons c cs ih =>
        intro acc
        rw [List.foldl_cons, ih, String.toList_append, List.flatMap_cons, List.append_assoc]
  rw [quote, String.toList_push, hfold]
  rfl

theorem stringToken_text (s : String) : stringToken (s.toList.map Char.toNat) = .string s := by
  unfold stringToken
  rw [joinUnits?_text, List.reverse_nil, List.nil_append, String.ofList_toList]

theorem readToken_quote (s : String) (rest : List Char) :
    readToken ((quote s).toList ++ rest) = some (.string s, rest) := by
  rw [toList_quote, List.cons_append, List.append_assoc]
  show (readUnits [] _).map _ = _
  rw [List.singleton_append, readUnits_text, Option.map_some, List.reverse_nil, List.nil_append]
  exact congrArg (fun t => some (t, rest)) (stringToken_text s)

/-! ## Numbers -/

/-- One or more digits. -/
def IsDigits (ds : List Char) : Prop := ds ≠ [] ∧ ∀ c ∈ ds, isDigit c = true

/-- Digits, where only zero itself begins with a zero. -/
def IsWhole (ds : List Char) : Prop := IsDigits ds ∧ (ds.head? = some '0' → ds = ['0'])

/-- Nothing, or a point with digits behind it. -/
def IsFraction (cs : List Char) : Prop := cs = [] ∨ ∃ ds, cs = '.' :: ds ∧ IsDigits ds

/-- Nothing, or an exponent, which may have a sign. -/
def IsExponent (cs : List Char) : Prop :=
  cs = [] ∨ ∃ e sign ds, cs = e :: (sign ++ ds) ∧ (e = 'e' ∨ e = 'E') ∧
    (sign = [] ∨ sign = ['+'] ∨ sign = ['-']) ∧ IsDigits ds

/-- The texts of JSON numbers. -/
def IsNumber (text : List Char) : Prop :=
  ∃ sign whole fraction exponent, text = sign ++ (whole ++ (fraction ++ exponent)) ∧
    (sign = [] ∨ sign = ['-']) ∧ IsWhole whole ∧ IsFraction fraction ∧ IsExponent exponent

/-- With this character behind it, a number would be a longer one, or none. -/
def goesOn (c : Char) : Bool := isDigit c || c == '.' || c == 'e' || c == 'E'

theorem IsDigits.head {ds : List Char} (h : IsDigits ds) :
    ∃ d ds', ds = d :: ds' ∧ isDigit d = true := by
  obtain ⟨hne, hall⟩ := h
  obtain ⟨d, ds', rfl⟩ := List.exists_cons_of_ne_nil hne
  exact ⟨d, ds', rfl, hall d List.mem_cons_self⟩

/-- The end of a number is the end of each of its parts. -/
theorem stops_of_goesOn {p : Char → Bool} (hp : ∀ c, p c = true → goesOn c = true)
    {rest : List Char} (h : StopsAt goesOn rest) : StopsAt p rest := by
  intro c hc
  by_contra hcontra
  have hyes := hp c (Bool.of_not_eq_false hcontra)
  rw [h c hc] at hyes
  cases hyes

theorem stops_isDigit {rest : List Char} (h : StopsAt goesOn rest) : StopsAt isDigit rest :=
  stops_of_goesOn (fun c hc => by simp [goesOn, hc]) h

theorem readDigits_append {ds rest : List Char} (hds : IsDigits ds) (h : StopsAt isDigit rest) :
    readDigits (ds ++ rest) = some (ds, rest) := by
  obtain ⟨htake, hdrop⟩ := h.takeWhile_append hds.2
  have hne : ds.isEmpty = false := by
    rw [List.isEmpty_eq_false_iff]
    exact hds.1
  simp only [readDigits, htake, hdrop, hne, Bool.false_eq_true, if_false]

theorem readWhole_append {ds rest : List Char} (hds : IsWhole ds) (h : StopsAt isDigit rest) :
    readWhole (ds ++ rest) = some (ds, rest) := by
  obtain ⟨hdigits, hzero⟩ := hds
  obtain ⟨d, ds', rfl, _⟩ := hdigits.head
  by_cases hd : d = '0'
  · rw [hzero (by rw [List.head?_cons, hd])]
    rfl
  · unfold readWhole
    split
    · rename_i heq
      exact absurd (List.cons.inj heq).1 hd
    · exact readDigits_append hdigits h

theorem readFraction_append {cs rest : List Char} (hcs : IsFraction cs)
    (h : StopsAt isDigit rest) (hpoint : StopsAt (· == '.') rest) :
    readFraction (cs ++ rest) = some (cs, rest) := by
  rcases hcs with rfl | ⟨ds, rfl, hds⟩
  · rw [List.nil_append]
    unfold readFraction
    split
    · have hc : ('.' == '.') = false := hpoint '.' rfl
      cases hc
    · rfl
  · rw [List.cons_append, readFraction, readDigits_append hds h]
    rfl

theorem readExponent_append {cs rest : List Char} (hcs : IsExponent cs)
    (h : StopsAt goesOn rest) : readExponent (cs ++ rest) = some (cs, rest) := by
  rcases hcs with rfl | ⟨e, sign, ds, rfl, he, hsign, hds⟩
  · cases rest with
    | nil => rfl
    | cons c cs =>
        have hc : goesOn c = false := h c rfl
        have hnot : ¬ (c = 'e' ∨ c = 'E') := by
          rintro (rfl | rfl)
          · exact absurd hc (by decide)
          · exact absurd hc (by decide)
        rw [List.nil_append, readExponent.eq_def]
        simp only [if_neg hnot]
  · have hread := readDigits_append hds (stops_isDigit h)
    rw [List.cons_append, List.append_assoc]
    rcases hsign with rfl | rfl | rfl
    · -- a digit is no sign
      obtain ⟨d, ds', rfl, hd⟩ := hds.head
      rw [List.nil_append, readExponent, if_pos he, hread]
      · rfl
      · intro cs heq
        rw [(List.cons.inj heq).1] at hd
        exact absurd hd (by decide)
      · intro cs heq
        rw [(List.cons.inj heq).1] at hd
        exact absurd hd (by decide)
    · rw [List.singleton_append, readExponent, if_pos he, hread]
      rfl
    · rw [List.singleton_append, readExponent, if_pos he, hread]
      rfl

theorem readSign_append {sign : List Char} (hsign : sign = [] ∨ sign = ['-']) {d : Char}
    (hd : isDigit d = true) (cs : List Char) : readSign (sign ++ d :: cs) = (sign, d :: cs) := by
  rcases hsign with rfl | rfl
  · rw [List.nil_append]
    unfold readSign
    split
    · rename_i heq
      rw [(List.cons.inj heq).1] at hd
      exact absurd hd (by decide)
    · rfl
  · rfl

theorem IsNumber.head {text : List Char} (h : IsNumber text) :
    ∃ c cs, text = c :: cs ∧ (c = '-' ∨ isDigit c = true) := by
  obtain ⟨sign, whole, fraction, exponent, rfl, hsign, hwhole, _, _⟩ := h
  obtain ⟨d, ds, rfl, hd⟩ := hwhole.1.head
  rcases hsign with rfl | rfl
  · exact ⟨d, _, rfl, .inr hd⟩
  · exact ⟨'-', _, rfl, .inl rfl⟩

theorem readNumber_append {text rest : List Char} (h : IsNumber text)
    (hrest : StopsAt goesOn rest) :
    readNumber (text ++ rest) = some (.number (String.ofList text), rest) := by
  obtain ⟨sign, whole, fraction, exponent, rfl, hsign, hwhole, hfraction, hexponent⟩ := h
  -- each part ends where the next one begins, or at the end of the number
  have hexp : ∀ p : Char → Bool, (∀ c, p c = true → goesOn c = true) → p 'e' = false →
      p 'E' = false → StopsAt p (exponent ++ rest) := by
    intro p hp he hE
    rcases hexponent with rfl | ⟨e, _, _, rfl, rfl | rfl, _, _⟩
    · exact stops_of_goesOn hp hrest
    · exact .cons he _
    · exact .cons hE _
  have hdigits : StopsAt isDigit (exponent ++ rest) :=
    hexp isDigit (fun c hc => by simp [goesOn, hc]) (by decide) (by decide)
  have hpoint : StopsAt (· == '.') (exponent ++ rest) :=
    hexp _ (fun c hc => by simp [goesOn, eq_of_beq hc]) (by decide) (by decide)
  have hfrac : StopsAt isDigit (fraction ++ (exponent ++ rest)) := by
    rcases hfraction with rfl | ⟨ds, rfl, _⟩
    · exact hdigits
    · exact .cons (by decide) _
  have hstart : readSign (sign ++ (whole ++ (fraction ++ exponent)) ++ rest) =
      (sign, whole ++ (fraction ++ (exponent ++ rest))) := by
    obtain ⟨d, ds, rfl, hd⟩ := hwhole.1.head
    simp only [List.append_assoc, List.cons_append]
    exact readSign_append hsign hd _
  unfold readNumber
  rw [hstart]
  show (readWhole (whole ++ (fraction ++ (exponent ++ rest))) >>= _) = _
  rw [readWhole_append hwhole hfrac]
  show (readFraction (fraction ++ (exponent ++ rest)) >>= _) = _
  rw [readFraction_append hfraction hdigits hpoint]
  show (readExponent (exponent ++ rest) >>= _) = _
  rw [readExponent_append hexponent hrest]
  show some (Token.number (String.ofList (sign ++ whole ++ fraction ++ exponent)), rest) = _
  simp only [List.append_assoc]

/-- Nothing else begins like a number. -/
theorem readToken_number {c : Char} (h : c = '-' ∨ isDigit c = true) (cs : List Char) :
    readToken (c :: cs) = readNumber (c :: cs) := by
  unfold readToken
  split
  case h_11 => rfl
  all_goals
    rename_i heq
    rw [(List.cons.inj heq).1] at h
    exact absurd h (by decide)

/-! ## Tokens -/

/-- The token can be read where the given text stands behind it. -/
def Token.Clear : Token → List Char → Prop
  | .number s, rest => IsNumber s.toList ∧ StopsAt goesOn rest
  | _, _ => True

theorem readToken_text {t : Token} {rest : List Char} (h : t.Clear rest) :
    readToken (t.text.toList ++ rest) = some (t, rest) := by
  cases t with
  | number s =>
      obtain ⟨hnumber, hrest⟩ := h
      obtain ⟨c, cs, hhead, hc⟩ := hnumber.head
      have hread := readNumber_append hnumber hrest
      rw [String.ofList_toList] at hread
      show readToken (s.toList ++ rest) = _
      rw [hhead] at hread ⊢
      rw [List.cons_append, readToken_number hc]
      exact hread
  | string s => exact readToken_quote s rest
  | bool b => cases b <;> rfl
  | illFormed =>
      -- one half of a pair of surrogates, which makes no text
      have hhex : stringUnit? ('\x5c' :: 'u' :: 'd' :: '8' :: '0' :: '0' :: '\x22' :: rest) =
          some (0xD800, '\x22' :: rest) := rfl
      show (readUnits [] ('\x5c' :: 'u' :: 'd' :: '8' :: '0' :: '0' :: '\x22' :: rest)).map _ = _
      rw [readUnits_of_stringUnit? [] (by decide) hhex, readUnits, if_pos rfl]
      rfl
  | _ => rfl

theorem text_eq_cons {t : Token} {rest : List Char} (h : t.Clear rest) :
    ∃ c cs, t.text.toList = c :: cs ∧ isSpace c = false := by
  cases t with
  | number s =>
      obtain ⟨c, cs, hhead, hc⟩ := h.1.head
      refine ⟨c, cs, hhead, ?_⟩
      rcases hc with rfl | hc
      · decide
      · rw [isDigit_iff] at hc
        by_contra hspace
        rw [Bool.not_eq_false] at hspace
        simp only [isSpace, Bool.or_eq_true, beq_iff_eq] at hspace
        rcases hspace with ((rfl | rfl) | rfl) | rfl
        all_goals exact absurd hc (by decide)
  | string s => exact ⟨_, _, toList_quote s, by decide⟩
  | bool b => cases b <;> exact ⟨_, _, rfl, by decide⟩
  | _ => exact ⟨_, _, rfl, by decide⟩

/-! ## Texts written for tokens -/

/--
`Written ts cs`: the text `cs` is that of the tokens `ts`, with white space anywhere between
them.
-/
inductive Written : List Token → List Char → Prop
  | nil : Written [] []
  | space {c : Char} {ts : List Token} {cs : List Char} :
      isSpace c = true → Written ts cs → Written ts (c :: cs)
  | token {t : Token} {ts : List Token} {cs : List Char} :
      t.Clear cs → Written ts cs → Written (t :: ts) (t.text.toList ++ cs)

theorem readTokens_space {c : Char} (h : isSpace c = true) (done : Array Token)
    (cs : List Char) : readTokens done (c :: cs) = readTokens done cs := by
  rw [readTokens, if_pos h]

theorem readTokens_token {t : Token} {cs : List Char} (h : t.Clear cs) (done : Array Token) :
    readTokens done (t.text.toList ++ cs) = readTokens (done.push t) cs := by
  have hread := readToken_text h
  obtain ⟨c, cs', htext, hspace⟩ := text_eq_cons h
  rw [htext, List.cons_append] at hread ⊢
  rw [readTokens, if_neg (by rw [hspace]; decide)]
  split
  · rename_i hnone
    rw [hread] at hnone
    cases hnone
  · rename_i hsome
    rw [hread] at hsome
    cases hsome
    rfl

/-- **A text is read as the tokens it is written for.** -/
theorem Written.readTokens {ts : List Token} {cs : List Char} (h : Written ts cs)
    (done : Array Token) : readTokens done cs = some (done ++ ts.toArray) := by
  induction h generalizing done with
  | nil =>
      rw [Json.readTokens]
      simp
  | space hc _ ih => rw [readTokens_space hc, ih]
  | token hclear _ ih =>
      rw [readTokens_token hclear, ih]
      simp

theorem Written.parse? {v : Json} {text : String} (h : Written v.tokens text.toList) :
    parse? text = some v := by
  unfold Json.parse?
  rw [h.readTokens]
  show ofTokens? (#[] ++ v.tokens.toArray).toList = _
  rw [Array.empty_append, List.toList_toArray]
  exact ofTokens?_tokens v

theorem Written.spaces {sp cs : List Char} {ts : List Token} (hsp : ∀ c ∈ sp, isSpace c = true)
    (h : Written ts cs) : Written ts (sp ++ cs) := by
  induction sp with
  | nil => exact h
  | cons c sp ih =>
      exact .space (hsp c List.mem_cons_self) (ih fun d hd => hsp d (List.mem_cons_of_mem _ hd))

/-! ## Numbers among the tokens of a value -/

mutual

/-- Every number in the value has the text of a number. -/
def Legible : Json → Prop
  | .number s => IsNumber s.toList
  | .array vs => LegibleItems vs
  | .object ms => LegibleMembers ms
  | _ => True

/-- Every number in the items has the text of a number. -/
def LegibleItems : List Json → Prop
  | [] => True
  | v :: vs => Legible v ∧ LegibleItems vs

/-- Every number in the members has the text of a number. -/
def LegibleMembers : List (String × Json) → Prop
  | [] => True
  | (_, v) :: ms => Legible v ∧ LegibleMembers ms

end

/-- Marks that may stand behind a value. -/
def Token.closes : Token → Bool
  | .comma | .rightBracket | .rightBrace => true
  | _ => false

/-- A mark that may stand behind a value comes first, unless nothing does. -/
def Closed (ts : List Token) : Prop := ∀ t ∈ ts.head?, t.closes = true

/-- Numbers have the texts of numbers, and are followed by marks. -/
def Parted : List Token → Prop
  | [] => True
  | .number s :: ts => IsNumber s.toList ∧ Closed ts ∧ Parted ts
  | _ :: ts => Parted ts

theorem closed_items {vs : List Json} {rest : List Token} (h : Closed rest) :
    Closed (itemTokens false vs ++ rest) := by
  cases vs with
  | nil =>
      rw [itemTokens_nil]
      exact h
  | cons v vs =>
      rw [itemTokens_cons]
      rintro t ⟨⟩
      rfl

theorem closed_members {ms : List (String × Json)} {rest : List Token} (h : Closed rest) :
    Closed (memberTokens false ms ++ rest) := by
  cases ms with
  | nil =>
      rw [memberTokens_nil]
      exact h
  | cons m ms =>
      rw [memberTokens_cons]
      rintro t ⟨⟩
      rfl

theorem parted_separator {ts : List Token} (h : Parted ts) (first : Bool) :
    Parted (separator first ++ ts) := by
  cases first <;> exact h

mutual

theorem parted_tokens {rest : List Token} (hclosed : Closed rest) (hrest : Parted rest) :
    ∀ v : Json, v.Legible → Parted (v.tokens ++ rest)
  | .null, _ | .bool _, _ | .string _, _ | .illFormed, _ => hrest
  | .number s, h => by
      rw [Legible] at h
      exact ⟨h, hclosed, hrest⟩
  | .array vs, h => by
      rw [Legible] at h
      rw [tokens_array, List.cons_append, List.append_assoc]
      have hend : Closed ([Token.rightBracket] ++ rest) := by
        rintro t ⟨⟩
        rfl
      exact parted_items hend hrest true vs h
  | .object ms, h => by
      rw [Legible] at h
      rw [tokens_object, List.cons_append, List.append_assoc]
      have hend : Closed ([Token.rightBrace] ++ rest) := by
        rintro t ⟨⟩
        rfl
      exact parted_members hend hrest true ms h

theorem parted_items {rest : List Token} (hclosed : Closed rest) (hrest : Parted rest)
    (first : Bool) : ∀ vs : List Json, LegibleItems vs → Parted (itemTokens first vs ++ rest)
  | [], _ => by
      rw [itemTokens_nil]
      exact hrest
  | v :: vs, h => by
      rw [LegibleItems] at h
      rw [itemTokens_cons, List.append_assoc, List.append_assoc]
      refine parted_separator ?_ first
      exact parted_tokens (closed_items hclosed) (parted_items hclosed hrest false vs h.2) v h.1

theorem parted_members {rest : List Token} (hclosed : Closed rest) (hrest : Parted rest)
    (first : Bool) :
    ∀ ms : List (String × Json), LegibleMembers ms → Parted (memberTokens first ms ++ rest)
  | [], _ => by
      rw [memberTokens_nil]
      exact hrest
  | (k, v) :: ms, h => by
      rw [LegibleMembers] at h
      rw [memberTokens_cons, List.append_assoc, List.cons_append, List.cons_append,
        List.append_assoc]
      refine parted_separator ?_ first
      exact parted_tokens (closed_members hclosed) (parted_members hclosed hrest false ms h.2) v h.1

end

theorem parted_of_legible {v : Json} (h : v.Legible) : Parted v.tokens := by
  have hend : Closed [] := by
    rintro t ⟨⟩
  have hparted := parted_tokens hend trivial v h
  rw [List.append_nil] at hparted
  exact hparted

theorem Parted.tail {t : Token} {ts : List Token} (h : Parted (t :: ts)) : Parted ts := by
  cases t with
  | number s => exact h.2.2
  | _ => exact h

/-- A token of such a row can be read if a closing mark ends numbers in the text behind it. -/
theorem Parted.clear {t : Token} {ts : List Token} (h : Parted (t :: ts)) {cs : List Char}
    (hcs : Closed ts → StopsAt goesOn cs) : t.Clear cs := by
  cases t with
  | number s => exact ⟨h.1, hcs h.2.1⟩
  | _ => trivial

/-! ## The two layouts -/

/-- A text that is written for the tokens, and ends numbers in front of it where they do. -/
def WrittenBehind (ts : List Token) (cs : List Char) : Prop :=
  Written ts cs ∧ (Closed ts → StopsAt goesOn cs)

theorem writtenBehind_nil : WrittenBehind [] [] := ⟨.nil, fun _ => .nil _⟩

/-- One more token, with white space on both sides. -/
theorem WrittenBehind.cons {t : Token} {ts : List Token} {cs : List Char}
    (h : WrittenBehind ts cs) (hparted : Parted (t :: ts)) (sp sp' : List Char)
    (hsp : ∀ c ∈ sp, isSpace c = true) (hsp' : ∀ c ∈ sp', isSpace c = true) :
    WrittenBehind (t :: ts) (sp ++ (t.text.toList ++ (sp' ++ cs))) := by
  have hstops : ∀ {sp cs : List Char}, (∀ c ∈ sp, isSpace c = true) → StopsAt goesOn cs →
      StopsAt goesOn (sp ++ cs) := by
    intro sp cs hsp hcs
    cases sp with
    | nil => exact hcs
    | cons c sp =>
        have hc := hsp c List.mem_cons_self
        simp only [isSpace, Bool.or_eq_true, beq_iff_eq] at hc
        refine .cons ?_ _
        rcases hc with ((rfl | rfl) | rfl) | rfl <;> decide
  refine ⟨.spaces hsp (.token (hparted.clear fun hc => hstops hsp' (h.2 hc)) (.spaces hsp' h.1)),
    fun hc => hstops hsp ?_⟩
  -- a closing mark ends a number
  have hclose := hc t rfl
  cases t with
  | comma | rightBracket | rightBrace => exact .cons (by decide) _
  | _ => cases hclose

theorem toList_compact (v : Json) : v.compact.toList = v.tokens.flatMap fun t => t.text.toList := by
  have hfold : ∀ (ts : List Token) (acc : String),
      (ts.foldl (fun acc t => acc ++ t.text) acc).toList =
        acc.toList ++ ts.flatMap fun t => t.text.toList := by
    intro ts
    induction ts with
    | nil => simp
    | cons t ts ih =>
        intro acc
        rw [List.foldl_cons, ih, String.toList_append, List.flatMap_cons, List.append_assoc]
  exact hfold v.tokens ""

theorem writtenBehind_compact {ts : List Token} (h : Parted ts) :
    WrittenBehind ts (ts.flatMap fun t => t.text.toList) := by
  induction ts with
  | nil => exact writtenBehind_nil
  | cons t ts ih =>
      exact (ih h.tail).cons h [] [] (by simp) (by simp)

theorem isSpace_newLine (level : Nat) : ∀ c ∈ (newLine level).toList, isSpace c = true := by
  intro c hc
  rw [newLine, String.toList_append] at hc
  rcases List.mem_append.mp hc with hc | hc
  · rw [List.mem_singleton.mp hc]
    rfl
  · rw [String.toList_ofList] at hc
    rw [List.eq_of_mem_replicate hc]
    rfl

/-- One more token in front of what `layout` goes on to write. -/
theorem writtenBehind_step {t : Token} {ts : List Token} {acc acc' out : List Char}
    (h : ∃ cs, out = acc' ++ cs ∧ WrittenBehind ts cs) (hparted : Parted (t :: ts))
    (sp sp' : List Char) (hsp : ∀ c ∈ sp, isSpace c = true) (hsp' : ∀ c ∈ sp', isSpace c = true)
    (hacc : acc' = acc ++ (sp ++ (t.text.toList ++ sp'))) :
    ∃ cs, out = acc ++ cs ∧ WrittenBehind (t :: ts) cs := by
  obtain ⟨cs, rfl, hcs⟩ := h
  refine ⟨_, ?_, hcs.cons hparted sp sp' hsp hsp'⟩
  rw [hacc]
  simp only [List.append_assoc]

theorem writtenBehind_layout {ts : List Token} (h : Parted ts) (acc : String) (level : Nat) :
    ∃ cs, (layout acc level ts).toList = acc.toList ++ cs ∧ WrittenBehind ts cs := by
  have hnone : ∀ c ∈ ([] : List Char), isSpace c = true := by
    intro c hc
    cases hc
  fun_induction layout acc level ts with
  | case1 acc level => exact ⟨[], (List.append_nil _).symm, writtenBehind_nil⟩
  | case2 acc level ts ih | case3 acc level ts ih =>
      -- two tokens at once, with nothing between them
      obtain ⟨cs, hout, hcs⟩ := ih h.tail.tail
      refine ⟨_, ?_, (hcs.cons h.tail [] [] hnone hnone).cons h [] [] hnone hnone⟩
      rw [hout, String.toList_append, List.append_assoc]
      rfl
  | case4 acc level ts _ _ ih | case5 acc level ts _ _ ih =>
      refine writtenBehind_step (ih h.tail) h [] _ hnone (isSpace_newLine (level + 1)) ?_
      rw [String.toList_append, String.toList_append, List.append_assoc]
      rfl
  | case6 acc level ts _ _ ih | case7 acc level ts _ _ ih =>
      refine writtenBehind_step (ih h.tail) h _ [] (isSpace_newLine (level - 1)) hnone ?_
      rw [String.toList_append, String.toList_append, List.append_assoc, List.append_nil]
  | case8 acc level ts _ _ ih =>
      refine writtenBehind_step (ih h.tail) h [] _ hnone (isSpace_newLine level) ?_
      rw [String.toList_append, String.toList_append, List.append_assoc]
      rfl
  | case9 acc level ts _ _ ih =>
      refine writtenBehind_step (ih h.tail) h [] [' '] hnone (by simp [isSpace]) ?_
      rw [String.toList_append]
      rfl
  | case10 acc level ts t _ _ _ _ _ _ _ _ ih =>
      refine writtenBehind_step (ih h.tail) h [] [] hnone hnone ?_
      rw [String.toList_append, List.append_nil, List.nil_append]

/-! ## Values -/

/-- **A value is read back from its text without white space.** -/
theorem parse?_compact {v : Json} (h : v.Legible) : parse? v.compact = some v := by
  refine Written.parse? ?_
  rw [toList_compact]
  exact (writtenBehind_compact (parted_of_legible h)).1

/-- **A value is read back from its text with a line for every item and member.** -/
theorem parse?_pretty {v : Json} (h : v.Legible) : parse? v.pretty = some v := by
  obtain ⟨cs, htext, hwritten⟩ := writtenBehind_layout (parted_of_legible h) "" 0
  refine Written.parse? ?_
  have hcs : v.pretty.toList = cs := htext
  rw [hcs]
  exact hwritten.1

end Dam.Json
