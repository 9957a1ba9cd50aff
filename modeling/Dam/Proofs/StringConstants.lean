import Dam.Proofs.Escapes
import Mathlib.Data.List.DropRight

/-!
# String constants

The assembler reads a string constant from left to right up to its closing quote, and takes
what is in it for UTF-16. Two things have to hold besides the reading of escapes. The constant
must not end early, so a quote inside it has a backslash in front that is not itself escaped:
the backslashes in front of it are odd in number (`Escaping`). And the units that are read have
to be UTF-16 for the string, which is a matter of code points alone (`Utf16`).

The text of a character is an escape as a whole or has no backslash in it. So between the texts
of two characters the number of backslashes is even again, and the argument goes on from there.
-/

namespace Dam

/-! ## UTF-16 -/

/--
`Utf16 units cs`: the units encode the characters. A code point below `0x10000` is one unit;
from any other, ten bits of what is above go into each of a pair of surrogates.
-/
inductive Utf16 : List Nat → List Char → Prop
  | nil : Utf16 [] []
  | unit {c : Char} {us : List Nat} {cs : List Char} (small : c.toNat < 0x10000)
      (rest : Utf16 us cs) : Utf16 (c.toNat :: us) (c :: cs)
  | pair {c : Char} {high low : Nat} {us : List Nat} {cs : List Char}
      (value : c.toNat = 0x10000 + (high * 0x400 + low)) (ten : low < 0x400)
      (rest : Utf16 us cs) : Utf16 ((0xD800 + high) :: (0xDC00 + low) :: us) (c :: cs)

theorem utf16_flatMap (cs : List Char) : Utf16 (cs.flatMap utf16) cs := by
  induction cs with
  | nil => exact .nil
  | cons c cs ih =>
      rw [List.flatMap_cons]
      unfold utf16
      dsimp only
      split
      · rename_i hsmall
        exact .unit hsmall ih
      · rename_i hlarge
        refine .pair ?_ (Nat.mod_lt _ (by decide)) ih
        omega

/-- A string has one encoding. -/
theorem Utf16.eq_flatMap {us : List Nat} {cs : List Char} (h : Utf16 us cs) :
    us = cs.flatMap utf16 := by
  induction h with
  | nil => rfl
  | @unit c us cs hsmall _ ih =>
      have hc : utf16 c = [c.toNat] := if_pos hsmall
      rw [List.flatMap_cons, hc, ← ih]
      rfl
  | @pair c high low us cs hvalue hten _ ih =>
      have hlarge : ¬ c.toNat < 0x10000 := by omega
      have hhigh : (c.toNat - 0x10000) / 0x400 = high := by omega
      have hlow : (c.toNat - 0x10000) % 0x400 = low := by omega
      have hc : utf16 c = [0xD800 + high, 0xDC00 + low] := by
        unfold utf16
        rw [if_neg hlarge, hhigh, hlow]
      rw [List.flatMap_cons, hc, ← ih]
      rfl

/-! ## Quotes -/

/-- Behind these characters a character is escaped: they end in an odd number of backslashes. -/
def Escaping (before : List Char) : Prop :=
  (before.rtakeWhile (· = '\x5c')).length % 2 = 1

theorem escaping_concat_backslash (before : List Char) :
    Escaping (before ++ ['\x5c']) ↔ ¬ Escaping before := by
  unfold Escaping
  rw [List.rtakeWhile_concat, if_pos (by decide), List.length_append, List.length_singleton]
  omega

theorem not_escaping_concat {c : Char} (h : c ≠ '\x5c') (before : List Char) :
    ¬ Escaping (before ++ [c]) := by
  unfold Escaping
  rw [List.rtakeWhile_concat, if_neg (by simpa using h)]
  exact Nat.zero_ne_one

/-- A text that has no quote in it and does not end in a backslash. -/
structure Inert (text : List Char) : Prop where
  quotes : '\x22' ∉ text
  last : ∃ front c, text = front ++ [c] ∧ c ≠ '\x5c'

theorem Inert.not_escaping {text : List Char} (h : Inert text) (before : List Char) :
    ¬ Escaping (before ++ text) := by
  obtain ⟨front, c, rfl, hc⟩ := h.last
  rw [← List.append_assoc]
  exact not_escaping_concat hc _

theorem Inert.append {text text' : List Char} (hquotes : '\x22' ∉ text) (h : Inert text') :
    Inert (text ++ text') := by
  refine ⟨?_, ?_⟩
  · rw [List.mem_append, not_or]
    exact ⟨hquotes, h.quotes⟩
  · obtain ⟨front, c, rfl, hc⟩ := h.last
    exact ⟨text ++ front, c, (List.append_assoc ..).symm, hc⟩

theorem inert_singleton {c : Char} (hquote : c ≠ '\x22') (hbackslash : c ≠ '\x5c') :
    Inert [c] := by
  refine ⟨?_, [], c, rfl, hbackslash⟩
  rw [List.mem_singleton]
  exact hquote.symm

theorem inert_escapeUnit (u : Nat) : Inert (escapeUnit u) := by
  have hall : ∀ n < 16, '\x22' ≠ hexDigit n ∧ hexDigit n ≠ '\x5c' := by decide
  have hdigit (n : Nat) : '\x22' ≠ hexDigit (n % 16) ∧ hexDigit (n % 16) ≠ '\x5c' :=
    hall _ (Nat.mod_lt n (by decide))
  refine ⟨?_, (escapeUnit u).dropLast, hexDigit (u % 16), rfl, (hdigit u).2⟩
  unfold escapeUnit
  simp only [List.mem_cons, not_or]
  exact ⟨by decide, by decide, (hdigit _).1, (hdigit _).1, (hdigit _).1, (hdigit _).1, by simp⟩

theorem inert_utf16 (c : Char) : Inert ((utf16 c).flatMap escapeUnit) := by
  -- the last unit decides how the text ends
  obtain ⟨us, u, hunits⟩ : ∃ us u, utf16 c = us ++ [u] := by
    unfold utf16
    dsimp only
    split
    · exact ⟨[], _, rfl⟩
    · exact ⟨[_], _, rfl⟩
  rw [hunits, List.flatMap_append, List.flatMap_singleton]
  refine .append ?_ (inert_escapeUnit u)
  intro hmem
  obtain ⟨v, -, hv⟩ := List.mem_flatMap.mp hmem
  exact (inert_escapeUnit v).quotes hv

/-- Only a quote and a backslash need care. -/
theorem escapeChar_cases (c : Char) :
    escapeChar c = ['\x5c', '\x22'] ∨ escapeChar c = ['\x5c', '\x5c'] ∨ Inert (escapeChar c) := by
  have hfirst : '\x22' ∉ ['\x5c'] := by decide
  have hshort {e : Char} (hquote : e ≠ '\x22') (hbackslash : e ≠ '\x5c') : Inert ['\x5c', e] :=
    .append hfirst (inert_singleton hquote hbackslash)
  unfold escapeChar
  split
  · exact .inl rfl
  · exact .inr (.inl rfl)
  · exact .inr (.inr (hshort (by decide) (by decide)))
  · exact .inr (.inr (hshort (by decide) (by decide)))
  · exact .inr (.inr (hshort (by decide) (by decide)))
  · rename_i hquote hbackslash _ _ _
    refine .inr (.inr ?_)
    split
    · exact inert_singleton hquote hbackslash
    · exact inert_utf16 c

/-- The text of a character leaves nothing escaped. -/
theorem not_escaping_append_escapeChar (c : Char) {before : List Char} (h : ¬ Escaping before) :
    ¬ Escaping (before ++ escapeChar c) := by
  rcases escapeChar_cases c with hc | hc | hc
  · rw [hc, List.append_cons]
    exact not_escaping_concat (by decide) _
  · rw [hc, List.append_cons, escaping_concat_backslash, escaping_concat_backslash, not_not]
    exact h
  · exact hc.not_escaping before

/-- A quote in the text of a character is escaped. -/
theorem escaping_of_escapeChar {c : Char} {before front back : List Char}
    (h : ¬ Escaping before) (hc : escapeChar c = front ++ '\x22' :: back) :
    Escaping (before ++ front) := by
  have hmem : '\x22' ∈ escapeChar c := by
    rw [hc]
    exact List.mem_append_right _ List.mem_cons_self
  rcases escapeChar_cases c with hquote | hbackslash | hinert
  · -- the quote is the second character, behind a backslash
    rw [hquote] at hc
    obtain rfl : front = ['\x5c'] := by
      rcases front with _ | ⟨x, _ | ⟨y, front⟩⟩
      · simp at hc
      · simp at hc
        rw [hc.1]
      · simp at hc
    exact (escaping_concat_backslash before).mpr h
  · rw [hbackslash] at hmem
    exact absurd hmem (by decide)
  · exact absurd hmem hinert.quotes

theorem escaping_of_flatMap {cs before front back : List Char} (h : ¬ Escaping before)
    (hcs : cs.flatMap escapeChar = front ++ '\x22' :: back) : Escaping (before ++ front) := by
  induction cs generalizing before front with
  | nil => simp at hcs
  | cons c cs ih =>
      have hnext := not_escaping_append_escapeChar c h
      rw [List.flatMap_cons, List.append_eq_append_iff] at hcs
      rcases hcs with ⟨front', rfl, hrest⟩ | ⟨back', hc, hback⟩
      · rw [← List.append_assoc]
        exact ih hnext hrest
      · -- the quote begins what is behind `front` in the text of this character, or behind it
        cases back' with
        | nil =>
            rw [List.append_nil] at hc
            have hrest : Escaping (before ++ escapeChar c ++ []) := ih hnext hback.symm
            rw [hc, List.append_nil] at hrest
            exact hrest
        | cons d back' =>
            obtain ⟨rfl, -⟩ := List.cons.inj hback
            exact escaping_of_escapeChar h hc

/-! ## Constants -/

/-- The text can stand between quotes as a constant for the string. -/
structure Conveys (text : List Char) (s : String) : Prop where
  printable : ∀ c ∈ text, isPrintable c = true
  /-- No quote ends the constant early. -/
  quotes : ∀ before after, text = before ++ '\x22' :: after → Escaping before
  /-- What is read is the one encoding of the string. -/
  units : ∃ units, escapedUnits? text = some units ∧ ∀ us, Utf16 us s.toList ↔ us = units

/-- **String constants survive.** The text of a string conveys it, and no other string has it. -/
theorem escapeString_conveys (s : String) :
    Conveys (escapeString s).toList s ∧ ∀ t, escapeString t = escapeString s → t = s := by
  refine ⟨⟨isPrintable_escapeString s, ?_, ?_⟩, fun t ht => escapeString_inj ht⟩
  · intro before after htext
    have hstart : ¬ Escaping [] := Nat.zero_ne_one
    unfold escapeString at htext
    rw [String.toList_ofList] at htext
    exact escaping_of_flatMap hstart htext
  · refine ⟨utf16Units s, escapedUnits?_escapeString s, fun us => ⟨Utf16.eq_flatMap, ?_⟩⟩
    rintro rfl
    exact utf16_flatMap s.toList

example : escapeString "a\"\\n\n\x7f😀" = "a\\\"\\\\n\\n\\u007f\\ud83d\\ude00" := by
  decide +kernel

end Dam
