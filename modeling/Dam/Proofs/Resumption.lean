import Dam.Proofs.Printing
import Dam.Proofs.Relocation
import Mathlib.Data.List.TakeWhile
import Mathlib.Logic.Function.Iterate

/-!
# Lexing goes on behind a fault

A fault can occur in the middle of a string, behind an escape or a number, or at one character,
and perhaps some lines on. Wherever that is, the next call finds what it would find if the text
began there, only further down (`Span.behind`). Since every fault takes a character with it,
there is an end to them, and after that to the text.

That a call does not depend on what was read before is shown for one token first: `next_uniform`
says what the next token is for all positions of the cursor at once.
-/

namespace Dam

/-! ## Places further down -/

/-- A span of a text, when that text stands behind the text `before`. -/
def Span.behind (before : String) (s : Span) : Span where
  start := before.utf8ByteSize + s.start
  stop := before.utf8ByteSize + s.stop
  line := before.toList.count '\n' + s.line
  col :=
    -- the first line goes on where the last line of `before` ends
    if s.line = 1 then (before.toList.reverse.takeWhile (· ≠ '\n')).length + s.col else s.col

theorem takeWhile_append_of_mem {p : Char → Bool} {cs ds : List Char}
    (h : ∃ c ∈ cs, p c = false) : (cs ++ ds).takeWhile p = cs.takeWhile p := by
  obtain ⟨c, hc, hpc⟩ := h
  rw [List.takeWhile_append, if_neg]
  intro hlength
  have hall := (List.takeWhile_prefix p : cs.takeWhile p <+: cs).eq_of_length hlength
  have hp := List.all_eq_true.mp List.all_takeWhile c (hall.symm ▸ hc)
  rw [hpc] at hp
  cases hp

/-- Where a lexeme stands is counted from the beginning of the text it is in. -/
theorem Span.over_append (before gap lexeme : String) :
    Span.over (before ++ gap) lexeme = (Span.over gap lexeme).behind before := by
  have hcol : 1 + ((before ++ gap).toList.reverse.takeWhile (· ≠ '\n')).length =
      if 1 + gap.toList.count '\n' = 1 then
        (before.toList.reverse.takeWhile (· ≠ '\n')).length +
          (1 + (gap.toList.reverse.takeWhile (· ≠ '\n')).length)
      else 1 + (gap.toList.reverse.takeWhile (· ≠ '\n')).length := by
    rw [String.toList_append, List.reverse_append]
    by_cases hfeed : '\n' ∈ gap.toList
    · have hcount := List.count_pos_iff.mpr hfeed
      rw [if_neg (by omega), takeWhile_append_of_mem]
      exact ⟨'\n', List.mem_reverse.mpr hfeed, by decide⟩
    · have hcount := List.count_eq_zero.mpr hfeed
      have hall : ∀ c ∈ gap.toList.reverse, decide (c ≠ '\n') = true := by
        intro c hc
        refine decide_eq_true ?_
        rintro rfl
        exact hfeed (List.mem_reverse.mp hc)
      rw [if_pos (by omega), List.takeWhile_append_of_pos hall,
        List.takeWhile_eq_self_iff.mpr hall, List.length_append]
      omega
  simp only [Span.over, behind, String.utf8ByteSize_append, String.toList_append, List.count_append,
    Span.mk.injEq] at hcol ⊢
  refine ⟨trivial, by omega, by omega, hcol⟩

variable (σ : Span → Span)

/-- The fault at its new place. -/
def LexError.relocate (e : LexError) : LexError := ⟨e.fault, σ e.span⟩

/-- What a call returns, with all places changed. -/
def relocateTokens (r : Except LexError (List Token)) : Except LexError (List Token) :=
  (r.map (List.map (Token.relocate σ))).mapError (LexError.relocate σ)

/-! ## The next token -/

/-- A token or a fault at its place. -/
def placed (span : Span) : Except LexFault TokenKind → Except LexError Token
  | .ok kind => .ok ⟨kind, span⟩
  | .error fault => .error ⟨fault, span⟩

namespace Cursor

/-- **The next token does not depend on the position**, except for its place: it is told by the
characters to come. Only at their end are there no characters to a token. -/
theorem next_uniform (rest : List Char) :
    ∃ gap lexeme rest' outcome, rest = gap ++ (lexeme ++ rest') ∧
      (lexeme = [] ↔ outcome = .ok .endOfInput) ∧
      ∀ q, next ⟨rest, q⟩ =
        (placed ((q.afterAll gap).spanTo (q.afterAll (gap ++ lexeme))) outcome,
          ⟨rest', q.afterAll (gap ++ lexeme)⟩) := by
  obtain ⟨gap, hpass, htrivia⟩ := skipTrivia_passes ⟨rest, .start⟩
  have hnone := noTrivia_skipTrivia ⟨rest, .start⟩
  have hrest : rest = gap ++ (skipTrivia ⟨rest, .start⟩).rest := hpass.rest
  have hskip (q : Position) : skipTrivia ⟨rest, q⟩ =
      ⟨(skipTrivia ⟨rest, .start⟩).rest, q.afterAll gap⟩ := by
    conv_lhs => rw [hrest]
    exact skipTrivia_of_trivia htrivia hnone q
  generalize (skipTrivia ⟨rest, .start⟩).rest = after at hskip hrest
  cases after with
  | nil =>
      refine ⟨gap, [], [], .ok .endOfInput, hrest, ⟨fun _ => rfl, fun _ => rfl⟩, fun q => ?_⟩
      simp only [next, hskip, List.append_nil]
      rfl
  | cons c cs =>
      refine ⟨gap, (scan c cs).lexeme, (scan c cs).rest, (scan c cs).outcome, ?_,
        ⟨fun hnil => absurd hnil (scan_lexeme_ne_nil c cs), fun hend => ?_⟩, fun q => ?_⟩
      · rw [scan_append, ← hrest]
      · exact (lexeme_of_scan hend).eq_nil_iff.mpr rfl
      · simp only [next, hskip, Position.afterAll_append]
        cases (scan c cs).outcome <;> rfl

/-- The fault of a call has characters, and the cursor stops behind them. -/
theorem fault_of_next {k k' : Cursor} {e : LexError} (h : k.next = (.error e, k')) :
    ∃ gap lexeme, k.Passes (gap ++ lexeme) k' ∧ lexeme ≠ [] ∧
      e.span = (k.position.afterAll gap).spanTo (k.position.afterAll (gap ++ lexeme)) := by
  obtain ⟨rest, q⟩ := k
  obtain ⟨gap, lexeme, rest', outcome, hrest, hend, hnext⟩ := next_uniform rest
  rw [hnext q] at h
  obtain ⟨hplaced, rfl⟩ := Prod.mk.inj h
  cases outcome with
  | ok kind => cases hplaced
  | error fault =>
      obtain rfl := Except.error.inj hplaced
      refine ⟨gap, lexeme, ⟨?_, rfl⟩, fun hnil => ?_, rfl⟩
      · exact hrest.trans (List.append_assoc ..).symm
      · cases hend.mp hnil

theorem tokensFrom_fault {k k' : Cursor} {e : LexError} (done : List Token)
    (h : k.next = (.error e, k')) : tokensFrom done k = (.error e, k') := by
  rw [tokensFrom]
  split
  · rename_i hnext
    cases h.symm.trans hnext
    rfl
  · rename_i hnext
    cases h.symm.trans hnext

/-! ## One call -/

/-- A call that fails stops behind its fault. -/
theorem passes_of_error {done : List Token} {k k' : Cursor} {e : LexError}
    (h : tokensFrom done k = (.error e, k')) :
    ∃ gap lexeme, k.Passes (gap ++ lexeme) k' ∧ lexeme ≠ [] ∧
      e.span = (k.position.afterAll gap).spanTo (k.position.afterAll (gap ++ lexeme)) := by
  fun_induction tokensFrom done k with
  | case1 done k e k₁ hnext =>
      cases h
      exact fault_of_next hnext
  | case2 done k t k₁ hnext ht => cases h
  | case3 done k t k₁ hnext ht ih =>
      obtain ⟨gap₁, lexeme₁, hpass₁, -⟩ := lexeme_of_next hnext
      obtain ⟨gap, lexeme, hpass, hne, hspan⟩ := ih h
      refine ⟨gap₁ ++ lexeme₁ ++ gap, lexeme, ?_, hne, ?_⟩
      · rw [List.append_assoc]
        exact hpass₁.trans hpass
      · rw [hspan, hpass₁.position, ← Position.afterAll_append, ← Position.afterAll_append,
          List.append_assoc (gap₁ ++ lexeme₁)]

/-- A call that succeeds stops at the end. -/
theorem passes_of_ok {done tokens : List Token} {k k' : Cursor}
    (h : tokensFrom done k = (.ok tokens, k')) : k.Passes k.rest k' ∧ k'.rest = [] := by
  fun_induction tokensFrom done k with
  | case1 done k e k₁ hnext => cases h
  | case2 done k t k₁ hnext ht =>
      cases h
      obtain ⟨gap, lexeme, hpass, -, hlexeme, -, hend, -⟩ := lexeme_of_next hnext
      have hrest : k'.rest = [] := hend (hlexeme.eq_nil_iff.mpr ht)
      have hall : k.rest = gap ++ lexeme := by rw [hpass.rest, hrest, List.append_nil]
      exact ⟨hall ▸ hpass, hrest⟩
  | case3 done k t k₁ hnext ht ih =>
      obtain ⟨gap, lexeme, hpass, -⟩ := lexeme_of_next hnext
      obtain ⟨hpass₁, hrest⟩ := ih h
      refine ⟨?_, hrest⟩
      rw [hpass.rest]
      exact hpass.trans hpass₁

/-- At the end of the text only the end is found. -/
theorem tokens_at_end (q : Position) :
    tokens ⟨[], q⟩ = (.ok [⟨.endOfInput, q.spanTo q⟩], ⟨[], q⟩) :=
  tokensFrom_end [] (next_at_end q .nil) rfl

/-- A call finds the same in a text and in the same text further down. -/
theorem tokensFrom_behind (before mid rest : List Char) (done : List Token) :
    (tokensFrom (done.map (Token.relocate (.behind (String.ofList before))))
        ⟨rest, Position.start.afterAll (before ++ mid)⟩).1 =
      relocateTokens (.behind (String.ofList before))
        (tokensFrom done ⟨rest, Position.start.afterAll mid⟩).1 := by
  obtain ⟨gap, lexeme, rest', outcome, hrest, hend, hnext⟩ := next_uniform rest
  have hspan : ((Position.start.afterAll (before ++ mid)).afterAll gap).spanTo
        ((Position.start.afterAll (before ++ mid)).afterAll (gap ++ lexeme)) =
      .behind (String.ofList before) (((Position.start.afterAll mid).afterAll gap).spanTo
        ((Position.start.afterAll mid).afterAll (gap ++ lexeme))) := by
    simp only [← Position.afterAll_append, ← List.append_assoc, Position.spanTo_afterAll]
    rw [← Span.over_append, List.append_assoc before, String.ofList_append]
  have hnear := hnext (Position.start.afterAll mid)
  have hfar := hnext (Position.start.afterAll (before ++ mid))
  rw [hspan] at hfar
  generalize ((Position.start.afterAll mid).afterAll gap).spanTo
    ((Position.start.afterAll mid).afterAll (gap ++ lexeme)) = span at hnear hfar
  cases outcome with
  | error fault =>
      rw [tokensFrom_fault _ hnear, tokensFrom_fault _ hfar]
      rfl
  | ok kind =>
      by_cases hkind : kind = .endOfInput
      · rw [tokensFrom_end _ hnear hkind, tokensFrom_end _ hfar hkind]
        show Except.ok _ = Except.ok _
        rw [List.map_reverse, List.map_cons]
        rfl
      · -- one token more is done, and what is left is shorter
        have hlexeme : lexeme ≠ [] := fun hnil => hkind (Except.ok.inj (hend.mp hnil))
        have hlt : rest'.length < rest.length := by
          have hpos := List.length_pos_iff.mpr hlexeme
          rw [hrest, List.length_append, List.length_append]
          omega
        rw [tokensFrom_token _ hnear hkind, tokensFrom_token _ hfar hkind,
          ← Position.afterAll_append, ← Position.afterAll_append, List.append_assoc before]
        exact tokensFrom_behind before (mid ++ (gap ++ lexeme)) rest' (⟨kind, span⟩ :: done)
termination_by rest.length

theorem tokens_behind (before rest : List Char) :
    (tokens ⟨rest, Position.start.afterAll before⟩).1 =
      relocateTokens (.behind (String.ofList before)) (lex (String.ofList rest)) := by
  have h := tokensFrom_behind before [] rest []
  rw [List.append_nil] at h
  unfold lex ofText
  rw [String.toList_ofList]
  exact h

/-! ## Any number of calls -/

/-- The cursor after `n` calls. -/
def afterCalls (k : Cursor) (n : Nat) : Cursor := Nat.iterate (fun k => k.tokens.2) n k

theorem afterCalls_succ (k : Cursor) (n : Nat) :
    k.afterCalls (n + 1) = (k.afterCalls n).tokens.2 :=
  Function.iterate_succ_apply' _ n k

/-- Whatever a call returns, the cursor has passed some of the text. -/
theorem passes_tokens (k : Cursor) : ∃ cs, k.Passes cs k.tokens.2 := by
  cases h : k.tokens.1 with
  | ok tokens => exact ⟨_, (passes_of_ok (Prod.ext h rfl)).1⟩
  | error e =>
      obtain ⟨gap, lexeme, hpass, -⟩ := passes_of_error (Prod.ext h rfl)
      exact ⟨_, hpass⟩

theorem passes_afterCalls (k : Cursor) (n : Nat) : ∃ cs, k.Passes cs (k.afterCalls n) := by
  induction n with
  | zero => exact ⟨[], rfl, rfl⟩
  | succ n ih =>
      obtain ⟨cs, hcs⟩ := ih
      obtain ⟨ds, hds⟩ := passes_tokens (k.afterCalls n)
      rw [afterCalls_succ]
      exact ⟨cs ++ ds, hcs.trans hds⟩

/-- There are no more faults than characters. -/
theorem exists_ok_afterCalls (k : Cursor) :
    ∃ n ≤ k.rest.length, (∀ m < n, ∃ e, (k.afterCalls m).tokens.1 = .error e) ∧
      ∃ tokens, (k.afterCalls n).tokens.1 = .ok tokens := by
  cases h : k.tokens.1 with
  | ok tokens => exact ⟨0, Nat.zero_le _, nofun, tokens, h⟩
  | error e =>
      have hrun : tokensFrom [] k = (.error e, k.tokens.2) := Prod.ext h rfl
      have hlt : k.tokens.2.rest.length < k.rest.length := by
        obtain ⟨gap, lexeme, hpass, hne, -⟩ := passes_of_error hrun
        have hpos := List.length_pos_iff.mpr hne
        have hlength := congrArg List.length hpass.rest
        rw [List.length_append, List.length_append] at hlength
        omega
      obtain ⟨n, hn, hfaults, hok⟩ := exists_ok_afterCalls k.tokens.2
      refine ⟨n + 1, by omega, fun m hm => ?_, hok⟩
      cases m with
      | zero => exact ⟨e, h⟩
      | succ m => exact hfaults m (by omega)
termination_by k.rest.length

end Cursor

/-- What the call behind `n` other calls returns. -/
def lexCall (source : String) (n : Nat) : Except LexError (List Token) :=
  ((Cursor.ofText source).afterCalls n).tokens.1

/-- How one call after the other goes through a text. -/
structure Resumes (source : String) : Prop where
  /-- A fault is not empty, and the next call lexes what stands behind it as a text of its own. -/
  resumes : ∀ n e, lexCall source n = .error e → e.span.start < e.span.stop ∧
    ∃ before after, source = before ++ after ∧ before.utf8ByteSize = e.span.stop ∧
      lexCall source (n + 1) = relocateTokens (.behind before) (lex after)
  /-- Some calls fail, at most one for each character; one succeeds; all others find the end. -/
  ends : ∃ n ≤ source.length, (∀ m < n, ∃ e, lexCall source m = .error e) ∧
    (∃ tokens, lexCall source n = .ok tokens) ∧
    ∀ m, n < m → lexCall source m = .ok [⟨.endOfInput, .over source ""⟩]

theorem resumes_of_error {source : String} {n : Nat} {e : LexError}
    (h : lexCall source n = .error e) : e.span.start < e.span.stop ∧
      ∃ before after, source = before ++ after ∧ before.utf8ByteSize = e.span.stop ∧
        lexCall source (n + 1) = relocateTokens (.behind before) (lex after) := by
  obtain ⟨passed, hpassed⟩ := Cursor.passes_afterCalls (.ofText source) n
  have hrun : Cursor.tokensFrom [] ((Cursor.ofText source).afterCalls n) =
      (.error e, (Cursor.ofText source).afterCalls (n + 1)) :=
    Prod.ext h (Cursor.afterCalls_succ _ n).symm
  obtain ⟨gap, lexeme, hpass, hne, hspan⟩ := Cursor.passes_of_error hrun
  have hall := hpassed.trans hpass
  have hposition : ((Cursor.ofText source).afterCalls n).position =
      Position.start.afterAll passed := hpassed.position
  rw [hposition, ← Position.afterAll_append, ← Position.afterAll_append, ← List.append_assoc,
    Position.spanTo_afterAll] at hspan
  have hcall : lexCall source (n + 1) = ((Cursor.ofText source).afterCalls (n + 1)).tokens.1 := rfl
  generalize (Cursor.ofText source).afterCalls (n + 1) = k at hall hcall
  obtain ⟨rest, position⟩ := k
  obtain rfl : position = Position.start.afterAll (passed ++ (gap ++ lexeme)) := hall.position
  have hsource : source.toList = passed ++ (gap ++ lexeme) ++ rest := hall.rest
  have hbytes : 0 < (String.ofList lexeme).utf8ByteSize := by
    refine Nat.pos_of_ne_zero fun hzero => hne ?_
    rw [String.utf8ByteSize_eq_zero_iff] at hzero
    simpa using congrArg String.toList hzero
  refine ⟨?_, String.ofList (passed ++ (gap ++ lexeme)), String.ofList rest, ?_, ?_, ?_⟩
  · rw [hspan]
    simp only [Span.over, String.utf8ByteSize_append]
    omega
  · rw [← String.ofList_append, ← hsource, String.ofList_toList]
  · rw [hspan, ← List.append_assoc, String.ofList_append]
    rfl
  · rw [hcall]
    exact Cursor.tokens_behind _ rest

/-- Once a call has succeeded, all that is left is the end of the text. -/
theorem lexCall_of_ok {source : String} {n : Nat} {tokens : List Token}
    (h : lexCall source n = .ok tokens) {m : Nat} (hm : n < m) :
    lexCall source m = .ok [⟨.endOfInput, .over source ""⟩] := by
  obtain ⟨passed, hpassed⟩ := Cursor.passes_afterCalls (.ofText source) n
  have hrun : Cursor.tokensFrom [] ((Cursor.ofText source).afterCalls n) =
      (.ok tokens, (Cursor.ofText source).afterCalls (n + 1)) :=
    Prod.ext h (Cursor.afterCalls_succ _ n).symm
  obtain ⟨hpass, hrest⟩ := Cursor.passes_of_ok hrun
  have hposition := (hpassed.trans hpass).position
  rw [← hpassed.rest] at hposition
  -- the cursor is at the end after this call, and stays there
  have hend : (Cursor.ofText source).afterCalls m =
      ⟨[], Position.start.afterAll source.toList⟩ := by
    induction m, hm using Nat.le_induction with
    | base =>
        generalize (Cursor.ofText source).afterCalls (n + 1) = k at hrest hposition
        obtain ⟨rest, position⟩ := k
        obtain rfl : rest = [] := hrest
        obtain rfl : position = Position.start.afterAll source.toList := hposition
        rfl
    | succ m _ ih => rw [Cursor.afterCalls_succ, ih, Cursor.tokens_at_end]
  have hspan := Position.spanTo_afterAll source.toList []
  rw [List.append_nil, String.ofList_toList] at hspan
  unfold lexCall
  rw [hend, Cursor.tokens_at_end, hspan]

/-- **Lexing resumes exactly where a fault ended.** -/
theorem lex_resumes (source : String) : Resumes source := by
  obtain ⟨n, hn, hfaults, tokens, hok⟩ := Cursor.exists_ok_afterCalls (.ofText source)
  refine ⟨fun n e h => resumes_of_error h, n, ?_, hfaults, ⟨tokens, hok⟩, fun m hm => ?_⟩
  · rw [← String.length_toList]
    exact hn
  · exact lexCall_of_ok hok hm

example : (List.range 4).map (lexCall "\"a\nb\\q @1") =
    [.error ⟨.unknownEscape 'q', ⟨0, 6, 1, 1⟩⟩, .error ⟨.unexpected '@', ⟨7, 8, 2, 5⟩⟩,
      .ok [⟨.number ⟨0x3ff0000000000000⟩, ⟨8, 9, 2, 6⟩⟩, ⟨.endOfInput, ⟨9, 9, 2, 7⟩⟩],
      .ok [⟨.endOfInput, ⟨9, 9, 2, 7⟩⟩]] := by
  decide +kernel

end Dam
