import Dam.Proofs.Orders

/-!
# Escapes

A string constant can be read back. An escape is a backslash and a letter, or a backslash,
the letter `u` and the four hexadecimal digits of a UTF-16 unit; any other character stands
for itself. Reading goes unit by unit, and no character's text leaves the reader inside an
escape, so the text of a string is read as the units of the string.
-/

namespace Dam

/-! ## Reading -/

/-- The unit that a backslash and a character stand for. -/
def shortEscape? : Char → Option Nat
  | '\x22' => some 0x22
  | '\x5c' => some 0x5c
  | 'n' => some 0x0a
  | 't' => some 0x09
  | 'r' => some 0x0d
  | _ => none

/-- The unit that four hexadecimal digits stand for. -/
def longEscape? (a b c d : Char) : Option Nat := do
  let a ← hexValue? a
  let b ← hexValue? b
  let c ← hexValue? c
  let d ← hexValue? d
  return ((a * 16 + b) * 16 + c) * 16 + d

/-- The units of a text with escapes. No quote stands alone, nor does a backslash. -/
def escapedUnits? : List Char → Option (List Nat)
  | [] => some []
  | '\x5c' :: 'u' :: a :: b :: c :: d :: cs =>
    (longEscape? a b c d).bind fun u => (escapedUnits? cs).map (u :: ·)
  | '\x5c' :: e :: cs => (shortEscape? e).bind fun u => (escapedUnits? cs).map (u :: ·)
  | c :: cs => if c = '\x5c' ∨ c = '\x22' then none else (escapedUnits? cs).map (c.toNat :: ·)

theorem escapedUnits?_short {e : Char} {u : Nat} (h : shortEscape? e = some u) (cs : List Char) :
    escapedUnits? ('\x5c' :: e :: cs) = (escapedUnits? cs).map (u :: ·) := by
  have hu : e ≠ 'u' := by
    rintro rfl
    cases h
  rw [escapedUnits?, h]
  · rfl
  · intro a b c d cs' heq
    exact absurd heq hu

theorem escapedUnits?_plain {c : Char} (hbackslash : c ≠ '\x5c') (hquote : c ≠ '\x22')
    (cs : List Char) : escapedUnits? (c :: cs) = (escapedUnits? cs).map (c.toNat :: ·) := by
  rw [escapedUnits?, if_neg (fun h => h.elim hbackslash hquote)]
  · intro a b c' d cs' heq
    exact absurd heq hbackslash
  · intro e cs' heq
    exact absurd heq hbackslash

/-! ## Reading what was written -/

theorem hexValue?_hexDigit {n : Nat} (h : n < 16) : hexValue? (hexDigit n) = some n := by
  have hall : ∀ n < 16, hexValue? (hexDigit n) = some n := by decide
  exact hall n h

theorem escapedUnits?_escapeUnit {u : Nat} (h : u < 0x10000) (cs : List Char) :
    escapedUnits? (escapeUnit u ++ cs) = (escapedUnits? cs).map (u :: ·) := by
  have hdigits : longEscape? (hexDigit (u / 4096 % 16)) (hexDigit (u / 256 % 16))
      (hexDigit (u / 16 % 16)) (hexDigit (u % 16)) = some u := by
    unfold longEscape?
    rw [hexValue?_hexDigit (by omega), hexValue?_hexDigit (by omega),
      hexValue?_hexDigit (by omega), hexValue?_hexDigit (by omega)]
    show some _ = some _
    congr 1
    omega
  show escapedUnits? ('\x5c' :: 'u' :: _ :: _ :: _ :: _ :: cs) = _
  rw [escapedUnits?, hdigits]
  rfl

theorem escapedUnits?_flatMap_escapeUnit {us : List Nat} (h : ∀ u ∈ us, u < 0x10000)
    (cs : List Char) :
    escapedUnits? (us.flatMap escapeUnit ++ cs) = (escapedUnits? cs).map (us ++ ·) := by
  induction us with
  | nil => cases hcs : escapedUnits? cs <;> simp [hcs]
  | cons u us ih =>
      rw [List.forall_mem_cons] at h
      rw [List.flatMap_cons, List.append_assoc, escapedUnits?_escapeUnit h.1, ih h.2,
        Option.map_map]
      rfl

theorem lt_of_mem_utf16 {c : Char} {u : Nat} (h : u ∈ utf16 c) : u < 0x10000 := by
  have hc := toNat_ranges c
  unfold utf16 at h
  dsimp only at h
  split at h
  · rw [List.mem_singleton] at h
    omega
  · rw [List.mem_cons, List.mem_singleton] at h
    omega

/-- The text of a character is read as its units, whatever follows. -/
theorem escapedUnits?_escapeChar (c : Char) (cs : List Char) :
    escapedUnits? (escapeChar c ++ cs) = (escapedUnits? cs).map (utf16 c ++ ·) := by
  unfold escapeChar
  split
  case h_6 hquote hbackslash _ _ _ =>
    split
    · rename_i hprintable
      have hunits : utf16 c = [c.toNat] := by
        have hle : c.toNat ≤ '~'.toNat := hprintable.2
        unfold utf16
        exact if_pos (Nat.lt_of_le_of_lt hle (by decide))
      rw [hunits]
      exact escapedUnits?_plain hbackslash hquote cs
    · exact escapedUnits?_flatMap_escapeUnit (fun u hu => lt_of_mem_utf16 hu) cs
  all_goals exact escapedUnits?_short rfl cs

theorem escapedUnits?_flatMap_escapeChar (cs : List Char) :
    escapedUnits? (cs.flatMap escapeChar) = some (cs.flatMap utf16) := by
  induction cs with
  | nil => rfl
  | cons c cs ih =>
      rw [List.flatMap_cons, escapedUnits?_escapeChar, ih]
      rfl

/-- **A string constant is read as the units of the string.** -/
theorem escapedUnits?_escapeString (s : String) :
    escapedUnits? (escapeString s).toList = some (utf16Units s) := by
  unfold escapeString
  rw [String.toList_ofList]
  exact escapedUnits?_flatMap_escapeChar s.toList

theorem escapeString_inj {s t : String} (h : escapeString s = escapeString t) : s = t := by
  have hunits : some (utf16Units s) = some (utf16Units t) := by
    rw [← escapedUnits?_escapeString, ← escapedUnits?_escapeString, h]
  exact utf16Units_inj (Option.some.inj hunits)

/-! ## Characters in use -/

/-- The printable characters of ASCII. -/
def isPrintable (c : Char) : Bool := ' ' ≤ c && c ≤ '~'

theorem isPrintable_hexDigit {n : Nat} (h : n < 16) : isPrintable (hexDigit n) = true := by
  have hall : ∀ n < 16, isPrintable (hexDigit n) = true := by decide
  exact hall n h

theorem isPrintable_escapeUnit (u : Nat) : ∀ c ∈ escapeUnit u, isPrintable c = true := by
  unfold escapeUnit
  simp only [List.forall_mem_cons]
  refine ⟨by decide, by decide, ?_, ?_, ?_, ?_, by simp⟩
  all_goals exact isPrintable_hexDigit (Nat.mod_lt _ (by decide))

theorem isPrintable_escapeChar (c : Char) : ∀ d ∈ escapeChar c, isPrintable d = true := by
  unfold escapeChar
  split
  case h_6 =>
    split
    · rename_i hprintable
      intro d hd
      rw [List.mem_singleton.mp hd, isPrintable, Bool.and_eq_true, decide_eq_true_eq,
        decide_eq_true_eq]
      exact hprintable
    · intro d hd
      obtain ⟨u, _, hu⟩ := List.mem_flatMap.mp hd
      exact isPrintable_escapeUnit u d hu
  all_goals exact List.all_eq_true.mp (by decide)

theorem isPrintable_escapeString (s : String) :
    ∀ c ∈ (escapeString s).toList, isPrintable c = true := by
  intro c hc
  unfold escapeString at hc
  rw [String.toList_ofList] at hc
  obtain ⟨d, _, hd⟩ := List.mem_flatMap.mp hc
  exact isPrintable_escapeChar d c hd

end Dam
