import Dam.Proofs.Passage
import Dam.Proofs.Relocation

/-!
# Recovery

The parser goes on after a fault, in the middle of statements and blocks that it has begun.
What it does with a list of tokens is nevertheless simple: it passes all tokens in front of
the first end of input, each once, and looks at nothing else; it reports a fault or more, but
no more faults than it has passed tokens; and it reports them in the order they stand in the
text, though an assignment to something that is no name is refused only when its value has
been read.
-/

namespace Dam.Parser

/-! ## The way through a list of tokens -/

theorem Along.ne_nil {ts us : List Token} {es : List ParseError} (h : Along ts es us)
    (hus : us ≠ []) : ts ≠ [] := by
  induction h with
  | stay => exact hus
  | pass _ _ => nofun
  | fault _ _ ih => exact ih hus

/-- Faults that one meets on the way stand in the order of the tokens. -/
theorem Along.ordered {ts us : List Token} {es : List ParseError} (h : Along ts es us)
    (hus : us ≠ []) (hts : ts.Pairwise fun t u => t.span.start ≤ u.span.start) :
    es.Pairwise (fun a b => a.span.start ≤ b.span.start) ∧
      ∀ e ∈ es, (placeOf ts).start ≤ e.span.start := by
  induction h with
  | stay => exact ⟨.nil, nofun⟩
  | @pass t ts us es hrest ih =>
      obtain ⟨ht, hts⟩ := List.pairwise_cons.mp hts
      obtain ⟨hes, hfirst⟩ := ih hus hts
      obtain ⟨u, ts, rfl⟩ := List.exists_cons_of_ne_nil (hrest.ne_nil hus)
      refine ⟨hes, fun e he => ?_⟩
      have htu : t.span.start ≤ u.span.start := ht u List.mem_cons_self
      exact Nat.le_trans htu (hfirst e he)
  | @fault e ts us es hplace _ ih =>
      obtain ⟨hes, hfirst⟩ := ih hus hts
      rw [← hplace] at hfirst ⊢
      exact ⟨List.pairwise_cons.mpr ⟨hfirst, hes⟩,
        List.forall_mem_cons.mpr ⟨Nat.le_refl _, hfirst⟩⟩

/-- The way through a whole list: the tokens in front of the first end of input are passed. -/
theorem declarations_pass (tokens : List Token) :
    ∃ es, (State.start tokens).Takes (front tokens) es []
        (declarations false [] (.start tokens) (Nat.le_refl _)).1.2 ∧
      (declarations false [] (.start tokens) (Nat.le_refl _)).1.2.rest =
        tokens.dropWhile (fun t => !t.kind.isEnd) ∧
      es.length ≤ (front tokens).length := by
  obtain ⟨ts, es, -, htakes, hle, -⟩ :=
    declarations_takes false [] (.start tokens) (Nat.le_refl _)
  have hend := (declarations_reads false [] (.start tokens) (Nat.le_refl _)).2
  generalize (declarations false [] (State.start tokens) _).1.2 = s at htakes hend ⊢
  have htokens : tokens = ts ++ s.rest := htakes.rest
  have hinner : ∀ t ∈ ts, (!t.kind.isEnd) = true := fun t ht => by rw [htakes.inner t ht]; rfl
  have hstop : s.rest.takeWhile (fun t => !t.kind.isEnd) = [] ∧
      s.rest.dropWhile (fun t => !t.kind.isEnd) = s.rest := by
    unfold State.peek at hend
    cases hrest : s.rest with
    | nil => exact ⟨rfl, rfl⟩
    | cons t us =>
        rw [hrest] at hend
        have ht : t.kind.isEnd = true := by simpa [ends] using hend
        simp [ht]
  have hfront : front tokens = ts := by
    rw [front, htokens, List.takeWhile_append_of_pos hinner, hstop.1, List.append_nil]
  have hdrop : tokens.dropWhile (fun t => !t.kind.isEnd) = s.rest := by
    rw [htokens, List.dropWhile_append_of_pos hinner, hstop.2]
  rw [hfront, hdrop]
  exact ⟨es, htakes, rfl, hle⟩

/-! ## Recovery -/

/-- What parsing does with the tokens, however many faults are in them. -/
structure Recovers (tokens : List Token) : Prop where
  /-- The parser stops at the first end of input, or at the end of the list. -/
  stops : (program (.start tokens)).2.rest = tokens.dropWhile fun t => !t.kind.isEnd
  /-- Nothing counts from the first end of input on but the place of that end. -/
  blind : ∀ tokens', front tokens' = front tokens → endPlace tokens' = endPlace tokens →
    parse tokens' = parse tokens
  /-- There are some faults, and no more than tokens in front of the first end of input. -/
  counted : ∀ es, parse tokens = .error es → 1 ≤ es.length ∧ es.length ≤ (front tokens).length
  /-- The faults of a text are reported in the order of the text. -/
  ordered : ∀ source, lex source = .ok tokens → ∀ es, parse tokens = .error es →
    es.Pairwise fun a b => a.span.start ≤ b.span.start

theorem relocation_id : Relocation id := ⟨rfl, fun _ _ => rfl⟩

/-- Parsing sees nothing behind the first end of input. -/
theorem parse_eq_of_front {tokens tokens' : List Token} (hfront : front tokens' = front tokens)
    (hend : endPlace tokens' = endPlace tokens) : parse tokens' = parse tokens := by
  have hid : Token.relocate id = id := rfl
  -- both are the image of one parse, under a change of places that changes none
  have hself : parse tokens =
      ((parse tokens).map (Program.relocate id)).mapError (List.map (ParseError.relocate id)) :=
    parse_relocate relocation_id (by rw [hid, List.map_id]) rfl
  rw [parse_relocate relocation_id (by rw [hid, List.map_id, hfront]) hend, ← hself]

theorem faults_of_parse {tokens : List Token} {es : List ParseError}
    (h : parse tokens = .error es) :
    (declarations false [] (.start tokens) (Nat.le_refl _)).1.2.faults.toList = es ∧ es ≠ [] := by
  rw [parse_eq rfl] at h
  split at h
  · cases h
  · rename_i hfaults
    cases h
    exact ⟨rfl, by simpa using hfaults⟩

/-- The state that is left holds the tokens that were left. -/
theorem rest_program (s : State) :
    (program s).2.rest = (declarations false [] s (Nat.le_refl _)).1.2.rest := by
  unfold program
  dsimp only
  split <;> rfl

/-- **Parsing recovers from every fault.** -/
theorem parse_recovers (tokens : List Token) : Recovers tokens := by
  obtain ⟨es, htakes, hrest, hle⟩ := declarations_pass tokens
  have hreported (es' : List ParseError) (h : parse tokens = .error es') : es = es' ∧ es' ≠ [] := by
    obtain ⟨hes, hne⟩ := faults_of_parse h
    rw [htakes.faults] at hes
    exact ⟨hes, hne⟩
  refine ⟨?_, fun tokens' hfront hend => parse_eq_of_front hfront hend, fun es' h => ?_,
    fun source hlex es' h => ?_⟩
  · rw [rest_program, hrest]
  · obtain ⟨rfl, hne⟩ := hreported es' h
    exact ⟨List.length_pos_iff.mpr hne, hle⟩
  · obtain ⟨rfl, -⟩ := hreported es' h
    have hrow := row_of_lex hlex
    have hstarts : tokens.Pairwise fun t u => t.span.start ≤ u.span.start :=
      hrow.ordered.imp_of_mem fun ht _ hle => Nat.le_trans (hrow.proper _ ht).2 hle
    have halong := htakes.along
    rw [List.append_nil] at halong
    -- the end of the text is never read, so that no fault is without a place
    exact (halong.ordered (htakes.rest_ne_nil (exists_isEnd_of_lex hlex)) hstarts).1

/-- Faults in a block, behind it and at the end; two of them are found behind their places. -/
def faultySample : String := "if (x) \x7b 1 = 2; let ; \x7d else print (y = ; \x7b (3) = 4 5; to"

/-- Where the faults of the tokens are said to begin. -/
def faultStarts (tokens : List Token) : List Nat :=
  match parse tokens with
  | .ok _ => []
  | .error es => es.map fun e => e.span.start

theorem parse_recovers_sample :
    ∃ tokens, lex faultySample = .ok tokens ∧ faultStarts tokens = [11, 20, 40, 48, 55, 57] ∧
      (front tokens).length = 27 ∧ Recovers tokens := by
  have hstarts : (lex faultySample).toOption.map (fun ts => (faultStarts ts, (front ts).length)) =
      some ([11, 20, 40, 48, 55, 57], 27) := by decide +kernel
  cases h : lex faultySample with
  | error e =>
      rw [h] at hstarts
      cases hstarts
  | ok tokens =>
      rw [h] at hstarts
      obtain ⟨hfaults, hlength⟩ := Prod.mk.inj (Option.some.inj hstarts)
      exact ⟨tokens, rfl, hfaults, hlength, parse_recovers tokens⟩

end Dam.Parser
