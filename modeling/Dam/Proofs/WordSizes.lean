import Dam.Proofs.DepthWalk
import Dam.Proofs.Lines
import Dam.Proofs.Resumption

/-!
# Counters and their words

Lines, columns and depths are numbers without a bound here, and words of 32 bits on the machine.
This file says how large the input may be before that makes a difference. A counter of the lexer
moves on by at most one for each character, so a text with fewer than `2 ^ 32 - 1` characters does
not wear it out (`position_fits`), and all places that are made from its counts fit as well
(`lex_fits`, `parse_fits`). An instruction adds at most one word to the operand stack, so the walk
over code stays within signed words if the code has fewer than `2 ^ 31` items, and if no call has a
descriptor of `2 ^ 30` characters (`walk_fits`).
-/

namespace Dam

/-! ## Places in a text -/

/-- A text whose bytes can be counted with 64 bits, and its lines and columns with 32. -/
structure Text.Countable (source : String) : Prop where
  bytes : source.utf8ByteSize < twoTo 64
  chars : source.length + 1 < twoTo 32

variable {source : String}

/-- No counter is worn out on the way through a text. -/
theorem position_fits (h : Text.Countable source) {before after : String}
    (hs : source = before ++ after) :
    (Position.start.afterAll before.toList).offset < twoTo 64 ∧
      (Position.start.afterAll before.toList).line < twoTo 32 ∧
      (Position.start.afterAll before.toList).col < twoTo 32 := by
  have hbytes := h.bytes
  have hchars := h.chars
  rw [hs, String.utf8ByteSize_append] at hbytes
  rw [hs, String.length_append] at hchars
  have hlength : before.toList.length = before.length := String.length_toList
  have hlines : before.toList.count '\n' ≤ before.toList.length := List.count_le_length
  have hcol : (before.toList.reverse.takeWhile (· ≠ '\n')).length ≤ before.toList.length := by
    have htake := (List.takeWhile_prefix (· ≠ '\n') (l := before.toList.reverse)).length_le
    rwa [List.length_reverse] at htake
  rw [Position.afterAll_start, String.ofList_toList]
  dsimp only
  omega

theorem Span.fits_over (h : Text.Countable source) {before lexeme after : String}
    (hs : source = before ++ lexeme ++ after) : (Span.over before lexeme).Fits := by
  have hstart := position_fits h (hs.trans (String.append_assoc ..))
  have hstop := position_fits h hs
  rw [Position.afterAll_start] at hstart hstop
  rw [String.ofList_toList] at hstart hstop
  exact ⟨hstart.1, hstop.1, hstart.2⟩

/-- **The places of tokens and faults fit.** -/
theorem lex_fits (h : Text.Countable source) :
    (∀ tokens, lex source = .ok tokens → ∀ t ∈ tokens, t.span.Fits) ∧
      ∀ e, lex source = .error e → e.span.Fits := by
  refine ⟨fun tokens hlex t ht => ?_, fun e hlex => ?_⟩
  · have hwhole : source = "" ++ source := by simp
    obtain ⟨before, lexeme, after, hs, hspan, -⟩ := (tiles_of_lex hlex).stands hwhole t ht
    rw [hspan]
    exact Span.fits_over h hs
  · have hrun : Cursor.tokensFrom [] (.ofText source) =
        (.error e, (Cursor.tokens (.ofText source)).2) := Prod.ext hlex rfl
    obtain ⟨gap, lexeme, hpass, -, hspan⟩ := Cursor.passes_of_error hrun
    rw [hspan, show (Cursor.ofText source).position = Position.start from rfl,
      Position.spanTo_afterAll]
    have hsource : source = String.ofList gap ++ String.ofList lexeme ++
        String.ofList (Cursor.tokens (.ofText source)).2.rest := by
      rw [← String.ofList_append, ← String.ofList_append, ← hpass.rest]
      exact String.ofList_toList.symm
    exact Span.fits_over h hsource

instance : Span.Closed Span.Fits := by
  refine .of_parts fun ha hb hfirst => ?_
  refine ⟨Nat.lt_of_le_of_lt (Nat.min_le_left _ _) ha.1, Nat.max_lt.mpr ⟨ha.2.1, hb.2.1⟩, ?_⟩
  rcases hfirst with rfl | rfl
  · exact ha.2.2
  · exact hb.2.2

/-- **The places of nodes and faults fit.** -/
theorem parse_fits (h : Text.Countable source) {tokens : List Token} (hlex : lex source = .ok tokens) :
    (∀ p, parse tokens = .ok p → p.span.Fits ∧ Stmt.PlacedAll Span.Fits p.stmts) ∧
      ∀ es, parse tokens = .error es → ∀ e ∈ es, e.span.Fits := by
  obtain ⟨hok, herror⟩ := Parser.places_of_parse hlex ((lex_fits h).1 tokens hlex)
  exact ⟨hok, fun es hes => (herror es hes).2⟩

/-! ## Words of a call -/

/-- A signed word of 32 bits can hold the number. -/
def InWord (z : Int) : Prop := -(twoTo 31 : Int) ≤ z ∧ z < (twoTo 31 : Int)

theorem wordsOf_le (cs : List Char) : wordsOf cs ≤ 2 * cs.length := by
  fun_induction wordsOf cs with
  | case1 => exact Nat.zero_le _
  | case2 c cs _ ih =>
      rw [List.length_cons]
      omega
  | case3 cs _ ih =>
      have hrest := afterSemicolon_length_le cs
      rw [List.length_cons]
      omega
  | case4 cs _ _ ih =>
      have hrest := afterElement_length_le cs
      rw [List.length_cons]
      omega
  | case5 c cs _ _ _ ih =>
      rw [List.length_cons]
      omega

namespace Method

variable (m : Method)

theorem argumentWords_le : m.argumentWords ≤ 2 * m.descriptor.length := by
  have htypes : (parameterTypes m.descriptor).length ≤ m.descriptor.length := by
    rw [← String.length_toList]
    unfold parameterTypes
    split
    · rename_i cs hcs
      rw [hcs, List.length_cons]
      exact Nat.le_succ_of_le (List.takeWhile_prefix _).length_le
    · exact Nat.zero_le _
  exact (wordsOf_le _).trans (Nat.mul_le_mul_left 2 htypes)

theorem resultWords_le : m.resultWords ≤ 2 := by
  unfold resultWords
  split <;> decide

/-- A call pushes one word more than it pops, at most. -/
theorem effect_le : m.effect ≤ 1 := by
  have hresult := m.resultWords_le
  unfold effect
  omega

theorem le_effect : -(2 * m.descriptor.length + 1 : Int) ≤ m.effect := by
  have hwords := m.argumentWords_le
  unfold effect
  omega

end Method

namespace Instr

/-- The method that an instruction calls. -/
def method? : Instr → Option Method
  | invokeVirtual m | invokeSpecial m => some m
  | _ => none

/-- The words of a call can be counted with 31 bits. -/
def Modest (i : Instr) : Prop := ∀ m ∈ i.method?, 2 * m.descriptor.length < twoTo 31

theorem effect_le (i : Instr) : i.effect ≤ 1 := by
  cases i with
  | invokeVirtual m | invokeSpecial m => exact m.effect_le
  | _ => simp [effect]

theorem le_effect {i : Instr} (h : i.Modest) : -(twoTo 31 : Int) ≤ i.effect := by
  have hsmall : -(twoTo 31 : Int) ≤ -2 := by decide
  cases i with
  | invokeVirtual m | invokeSpecial m =>
      have hwords : 2 * m.descriptor.length < twoTo 31 := h m rfl
      have heffect := m.le_effect
      change -(twoTo 31 : Int) ≤ m.effect
      omega
  | _ => exact hsmall.trans (by simp [effect])

end Instr

/-! ## The walk -/

/-- The depths that an error shows. -/
def LinkError.depths : LinkError → List Nat
  | .inconsistentDepth _ first second => [first, second]
  | .tooDeep depth => [depth]
  | _ => []

namespace Code

namespace Walk

variable {w w' : Walk} {n : Nat}

/-- All depths that the walk knows of are at most `n`. -/
structure UpTo (n : Nat) (w : Walk) : Prop where
  depth : ∀ d ∈ w.depth, d ≤ n
  entry : ∀ (x : String) (d : Nat), w.entry[x]? = some d → d ≤ n
  deepest : w.deepest ≤ n

theorem upTo_start : UpTo 0 start := by
  refine ⟨?_, fun x d hd => ?_, Nat.le_refl 0⟩
  · rintro d ⟨⟩
    exact Nat.le_refl 0
  · simp [start] at hd

theorem UpTo.mono {n' : Nat} (h : UpTo n w) (hn : n ≤ n') : UpTo n' w :=
  ⟨fun d hd => (h.depth d hd).trans hn, fun x d hd => (h.entry x d hd).trans hn,
    h.deepest.trans hn⟩

theorem UpTo.depth_getD (h : UpTo n w) : w.depth.getD 0 ≤ n := by
  cases hd : w.depth with
  | none => exact Nat.zero_le n
  | some d => exact h.depth d hd

/-- The depths that are known when the walk stops, or shown in its error, are at most `n`. -/
def Bounded (n : Nat) : Except LinkError Walk → Prop
  | .ok w => UpTo n w
  | .error e => ∀ d ∈ e.depths, d ≤ n

theorem bounded_enter (h : UpTo n w) {d : Nat} (hd : d ≤ n) (l : Label) :
    Bounded n (w.enter l d) := by
  unfold enter
  split
  · rename_i noted hnoted
    split
    · exact h
    · have hnoted : noted ≤ n := h.entry l.name noted hnoted
      simp [Bounded, LinkError.depths, hnoted, hd]
  · refine ⟨h.depth, fun x m hm => ?_, h.deepest⟩
    dsimp only at hm
    rw [Std.TreeMap.getElem?_insert] at hm
    split at hm
    · exact Option.some.inj hm ▸ hd
    · exact h.entry x m hm

theorem bounded_passLabel (h : UpTo n w) (l : Label) : Bounded n (w.passLabel l) := by
  unfold passLabel
  split
  · rename_i d hd
    exact bounded_enter h (h.depth d hd) l
  · exact ⟨fun d hd => h.entry l.name d hd, h.entry, h.deepest⟩

/-- An instruction makes the stack deeper by one word at most. -/
theorem bounded_passInstr (h : UpTo n w) (i : Instr) : Bounded (n + 1) (w.passInstr i) := by
  have hdepth := h.depth_getD
  have heffect := i.effect_le
  unfold passInstr
  dsimp only
  split
  · exact List.forall_mem_nil _
  · rename_i hnonneg
    have hafter : ((w.depth.getD 0 : Int) + i.effect).toNat ≤ n + 1 := by omega
    have hpassed : UpTo (n + 1) { w with
        depth := if i.endsFlow then none else some ((w.depth.getD 0 : Int) + i.effect).toNat
        deepest := max w.deepest ((w.depth.getD 0 : Int) + i.effect).toNat } := by
      refine ⟨fun d hd => ?_, (h.mono (Nat.le_succ n)).entry,
        Nat.max_le.mpr ⟨Nat.le_succ_of_le h.deepest, hafter⟩⟩
      dsimp only at hd
      split at hd
      · cases hd
      · exact Option.some.inj hd ▸ hafter
    split
    · exact hpassed
    · exact bounded_enter hpassed hafter _

theorem bounded_step (h : UpTo n w) (x : Item) : Bounded (n + 1) (w.step x) := by
  have hmap {r : Except LinkError Walk} (hr : Bounded (n + 1) r) :
      Bounded (n + 1) (r.map fun w => { w with index := w.index + 1 }) := by
    cases r with
    | error e => exact hr
    | ok w => exact ⟨hr.depth, hr.entry, hr.deepest⟩
  cases x with
  | label l =>
      have hpassed := bounded_passLabel h l
      refine hmap (r := w.passLabel l) ?_
      cases hr : w.passLabel l with
      | error e =>
          rw [hr] at hpassed
          exact fun d hd => Nat.le_succ_of_le (hpassed d hd)
      | ok w' =>
          rw [hr] at hpassed
          exact UpTo.mono hpassed (Nat.le_succ n)
  | op i => exact hmap (bounded_passInstr h i)

theorem bounded_foldlM (h : UpTo n w) (items : List Item) :
    Bounded (n + items.length) (items.foldlM step w) := by
  induction items generalizing n w with
  | nil => exact h
  | cons x items ih =>
      have hstep := bounded_step h x
      rw [List.foldlM_cons, List.length_cons]
      cases hx : w.step x with
      | error e =>
          rw [hx] at hstep
          exact fun d hd => (hstep d hd).trans (by omega)
      | ok w' =>
          rw [hx] at hstep
          have hrest := ih hstep
          rwa [show n + 1 + items.length = n + (items.length + 1) by omega] at hrest

end Walk

/-- No depth exceeds the number of items in front of it. -/
theorem bounded_walk (items : List Item) : Walk.Bounded items.length (walk items) := by
  have h := Walk.bounded_foldlM Walk.upTo_start items
  rwa [Nat.zero_add] at h

theorem bounded_maxDepth {items : List Item} {e : LinkError} (h : maxDepth items = .error e) :
    ∀ d ∈ e.depths, d ≤ items.length := by
  have hwalk := bounded_walk items
  unfold maxDepth at h
  cases hw : walk items with
  | error e' =>
      rw [hw] at h hwalk
      cases h
      exact hwalk
  | ok w =>
      rw [hw] at h hwalk
      simp only [bind, Except.bind] at h
      split at h
      · cases h
        exact List.forall_mem_singleton.mpr hwalk.deepest
      · cases h

/-- **The walk stays within signed words of 32 bits**: what it knows in front of an instruction,
what the instruction does to the depth, their sum, and the depths in an error. -/
theorem walk_fits {items : List Item} (hlength : items.length < twoTo 31)
    (hcalls : ∀ i ∈ instrs items, i.Modest) :
    (∀ before i after w, items = before ++ .op i :: after → walk before = .ok w →
      (∃ n < twoTo 31, w.UpTo n) ∧ InWord i.effect ∧
        InWord ((w.depth.getD 0 : Nat) + i.effect)) ∧
      ∀ e, maxDepth items = .error e → ∀ d ∈ e.depths, d < twoTo 31 := by
  refine ⟨fun before i after w hitems hw => ?_, fun e he d hd => ?_⟩
  · have hwalk := bounded_walk before
    rw [hw] at hwalk
    have hbefore : before.length + 1 < twoTo 31 := by
      rw [hitems, List.length_append, List.length_cons] at hlength
      omega
    have hmodest : i.Modest := by
      refine hcalls i (List.mem_filterMap.mpr ⟨.op i, ?_, rfl⟩)
      rw [hitems]
      simp
    have hdepth := Walk.UpTo.depth_getD hwalk
    have hupper := i.effect_le
    have hlower := Instr.le_effect hmodest
    exact ⟨⟨before.length, by omega, hwalk⟩, ⟨hlower, by omega⟩, by omega, by omega⟩
  · exact Nat.lt_of_le_of_lt (bounded_maxDepth he d hd) hlength

end Code

end Dam
