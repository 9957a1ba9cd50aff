import Dam.Proofs.OperandStack

/-!
# Generated code links

Finishing code checks its labels and walks over it once to measure its operand stack.
Neither can fail on generated code, apart from the limit on the depth. The labels were
settled in `Linked`. The depth follows from the types: where the typed walk has a stack,
the walk that only counts has its length, so the ways into a label agree and no
instruction finds too little. `walk_of_flows` carries this along.
-/

namespace Dam

/-! ## Depths are lengths of typed stacks -/

theorem Method.effect_of_signature {m : Method} {sig : Signature} (h : m.signature? = some sig) :
    m.effect = sig.gives.length - sig.takes.length := by
  unfold Method.signature? at h
  split at h
  · subst m; cases h; decide +kernel
  split at h
  · subst m; cases h; decide +kernel
  split at h
  · subst m; cases h; decide +kernel
  · rw [Option.map_eq_some_iff] at h
    obtain ⟨τ, hτ, rfl⟩ := h
    have hm : m = Gen.println τ := by simpa using List.find?_some hτ
    subst hm
    cases τ <;> decide +kernel

theorem Instr.effect_of_signature {i : Instr} {sig : Signature} (h : i.signature? = some sig) :
    i.effect = sig.gives.length - sig.takes.length := by
  cases i with
  | invokeVirtual m => exact Method.effect_of_signature h
  | new c =>
      simp only [signature?] at h
      split at h
      · cases h; rfl
      · cases h
  | getStatic f d =>
      simp only [signature?] at h
      split at h
      · cases h; rfl
      · split at h
        · cases h; rfl
        · cases h
  | dup => cases h
  | pop => cases h
  | invokeSpecial m => cases h
  | _ => cases h; rfl

/-- Counting words is what typing does to the length of the stack. -/
theorem Instr.length_onStack? {i : Instr} {σ σ' : List StackType} (h : i.onStack? σ = some σ') :
    (σ.length : Int) + i.effect = σ'.length := by
  rcases onStack?_eq_some h with ⟨sig, rest, hsig, rfl, rfl⟩ | ⟨t, rest, rfl, rfl, rfl⟩ |
    ⟨t, rfl, rfl⟩ | ⟨rest, rfl, rfl, rfl⟩
  · rw [effect_of_signature hsig, List.length_append, List.length_append]
    omega
  · simp [effect]
  · simp only [effect, List.length_cons]
    omega
  · have heffect : (invokeSpecial Gen.scannerInit).effect = -2 := by decide +kernel
    rw [heffect, List.length_map]
    simp only [List.length_cons]
    omega

namespace Code

/-! ## The counting walk follows the typed one -/

/--
The counting walk `w` is at the typed point `p`: it has the length of the stack there,
it has noted the labels jumped to, and every depth it has noted is the length of the stack
at the label.
-/
structure Follows (Δ : Label → List StackType) (p : Point (List StackType)) (w : Walk) : Prop where
  depth : w.depth = p.here.map List.length
  noted : ∀ l ∈ p.jumped, w.entry[l.name]? = some (Δ l).length
  entry : ∀ (l : Label) (n : Nat), w.entry[l.name]? = some n → n = (Δ l).length

variable {Δ : Label → List StackType}

/-- Entering a label with the length of its stack succeeds, and notes it. -/
theorem Follows.enter {here : Option (List StackType)} {js : List Label} {w : Walk}
    (h : Follows Δ ⟨here, js⟩ w) (l : Label) :
    ∃ w', w.enter l (Δ l).length = .ok w' ∧ Follows Δ ⟨here, l :: js⟩ w' := by
  unfold Walk.enter
  cases hn : w.entry[l.name]? with
  | some n =>
      have hdepth := h.entry l n hn
      refine ⟨w, if_pos hdepth, h.depth, fun l' hl' => ?_, h.entry⟩
      rcases List.mem_cons.mp hl' with rfl | hl'
      · rw [hn, hdepth]
      · exact h.noted l' hl'
  | none =>
      refine ⟨_, rfl, h.depth, fun l' hl' => ?_, fun l' n hl' => ?_⟩
      · rw [Std.TreeMap.getElem?_insert]
        split
        · rename_i heq
          have hname := Std.LawfulEqCmp.compare_eq_iff_eq.mp heq
          rw [Label.eq_of_name hname]
        · rename_i hne
          rcases List.mem_cons.mp hl' with rfl | hl'
          · exact absurd (Std.LawfulEqCmp.compare_eq_iff_eq.mpr rfl) hne
          · exact h.noted l' hl'
      · rw [Std.TreeMap.getElem?_insert] at hl'
        split at hl'
        · rename_i heq
          have hname := Std.LawfulEqCmp.compare_eq_iff_eq.mp heq
          rw [← Label.eq_of_name hname]
          exact (Option.some.inj hl').symm
        · exact h.entry l' n hl'

theorem Follows.fall {σ : List StackType} {js : List Label} {w : Walk} {l : Label}
    (h : Follows Δ ⟨some σ, js⟩ w) (hσ : σ = Δ l) :
    ∃ w', w.step (.label l) = .ok w' ∧ Follows Δ ⟨some (Δ l), js⟩ w' := by
  subst hσ
  obtain ⟨w', hw', hf⟩ := h.enter l
  have hdepth : w.depth = some (Δ l).length := h.depth
  refine ⟨{ w' with index := w'.index + 1 }, ?_, hf.depth,
    fun l' hl' => hf.noted l' (List.mem_cons_of_mem _ hl'), hf.entry⟩
  simp only [Walk.step, Walk.passLabel, hdepth, hw', Except.map]

theorem Follows.land {js : List Label} {w : Walk} {l : Label} (h : Follows Δ ⟨none, js⟩ w)
    (hl : l ∈ js) : ∃ w', w.step (.label l) = .ok w' ∧ Follows Δ ⟨some (Δ l), js⟩ w' := by
  have hdepth : w.depth = none := h.depth
  refine ⟨{ w with depth := w.entry[l.name]?, index := w.index + 1 }, ?_, h.noted l hl, h.noted,
    h.entry⟩
  simp only [Walk.step, Walk.passLabel, hdepth, Except.map]

/-- An instruction on the length of a stack it can be run on. -/
theorem Follows.passInstr {σ σ' : List StackType} {js : List Label} {w : Walk} {i : Instr}
    (h : Follows Δ ⟨some σ, js⟩ w) (hσ : i.onStack? σ = some σ')
    (hl : ∀ l, i.target? = some l → σ' = Δ l) :
    ∃ w', w.passInstr i = .ok w' ∧
      Follows Δ ⟨if i.endsFlow then none else some σ', i.target?.toList ++ js⟩ w' := by
  have hdepth : w.depth = some σ.length := h.depth
  have hafter : ((w.depth.getD 0 : Nat) : Int) + i.effect = σ'.length := by
    rw [hdepth]
    exact Instr.length_onStack? hσ
  unfold Walk.passInstr
  rw [hafter]
  -- a length is never negative, so the walk does not underflow
  simp only [if_neg (show ¬ (σ'.length : Int) < 0 by omega), Int.toNat_natCast]
  have hmid : Follows Δ ⟨if i.endsFlow then none else some σ', js⟩
      { w with
        depth := if i.endsFlow then none else some σ'.length
        deepest := max w.deepest σ'.length } := by
    refine ⟨?_, h.noted, h.entry⟩
    cases i.endsFlow <;> rfl
  cases ht : i.target? with
  | none => exact ⟨_, rfl, hmid⟩
  | some l =>
      rw [hl l ht] at hmid ⊢
      exact hmid.enter l

theorem Follows.op {σ σ' : List StackType} {js : List Label} {w : Walk} {i : Instr}
    (h : Follows Δ ⟨some σ, js⟩ w) (hσ : i.onStack? σ = some σ')
    (hl : ∀ l, i.target? = some l → σ' = Δ l) :
    ∃ w', w.step (.op i) = .ok w' ∧
      Follows Δ ⟨if i.endsFlow then none else some σ', i.target?.toList ++ js⟩ w' := by
  obtain ⟨w', hw', hf⟩ := h.passInstr hσ hl
  refine ⟨{ w' with index := w'.index + 1 }, ?_, hf.depth, hf.noted, hf.entry⟩
  simp only [Walk.step, hw', Except.map]

theorem foldlM_step {x : Item} {c : List Item} {w w₁ w₂ : Walk} (hstep : w.step x = .ok w₁)
    (hrest : c.foldlM Walk.step w₁ = .ok w₂) : (x :: c).foldlM Walk.step w = .ok w₂ := by
  rw [List.foldlM_cons, hstep]
  exact hrest

/-- **Where code has types, counting goes through** and arrives at the length of the last stack. -/
theorem walk_of_flows {p q : Point (List StackType)} {c : List Item} {w : Walk}
    (h : Flows (fun i σ σ' => i.onStack? σ = some σ') Eq Δ p c q) (hw : Follows Δ p w) :
    ∃ w', c.foldlM Walk.step w = .ok w' ∧ Follows Δ q w' := by
  induction h generalizing w with
  | nil => exact ⟨w, rfl, hw⟩
  | fall hle _ ih =>
      obtain ⟨w₁, hstep, hw₁⟩ := hw.fall hle
      obtain ⟨w₂, hrest, hw₂⟩ := ih hw₁
      exact ⟨w₂, foldlM_step hstep hrest, hw₂⟩
  | land hl _ ih =>
      obtain ⟨w₁, hstep, hw₁⟩ := hw.land hl
      obtain ⟨w₂, hrest, hw₂⟩ := ih hw₁
      exact ⟨w₂, foldlM_step hstep hrest, hw₂⟩
  | next hs ht _ ih =>
      obtain ⟨w₁, hstep, hw₁⟩ := hw.op hs (by simp [ht])
      rw [ht, Instr.endsFlow_of_target? ht] at hw₁
      obtain ⟨w₂, hrest, hw₂⟩ := ih hw₁
      exact ⟨w₂, foldlM_step hstep hrest, hw₂⟩
  | branch hs ht hle _ ih =>
      obtain ⟨w₁, hstep, hw₁⟩ := hw.op hs (by rw [ht]; rintro _ ⟨⟩; exact hle)
      rw [ht] at hw₁
      obtain ⟨w₂, hrest, hw₂⟩ := ih hw₁
      exact ⟨w₂, foldlM_step hstep hrest, hw₂⟩

theorem Follows.start : Follows Δ ⟨some [], []⟩ .start := by
  refine ⟨rfl, by simp, fun l n hn => ?_⟩
  simp [Walk.start] at hn

/-! ## Labels -/

theorem firstRepeated?_eq_none (seen : Std.TreeSet String) (ls : List Label) (hnd : ls.Nodup)
    (hseen : ∀ l ∈ ls, seen.contains l.name = false) : firstRepeated? seen ls = none := by
  induction ls generalizing seen with
  | nil => rfl
  | cons l ls ih =>
      rw [List.nodup_cons] at hnd
      rw [firstRepeated?, if_neg (by simp [hseen l List.mem_cons_self])]
      refine ih _ hnd.2 fun l' hl' => ?_
      rw [Std.TreeSet.contains_insert, hseen l' (List.mem_cons_of_mem _ hl'), Bool.or_false]
      have hne : l.name ≠ l'.name := fun h => hnd.1 (Label.eq_of_name h ▸ hl')
      simpa using hne

/-- Labels that are placed once, and jumps to nowhere else, are what the check asks for. -/
theorem checkLabels_eq_ok {items : List Item} (hnd : (labels items).Nodup)
    (ht : ∀ l ∈ targets items, l ∈ labels items) : checkLabels items = .ok () := by
  unfold checkLabels
  rw [firstRepeated?_eq_none ∅ _ hnd (by simp)]
  have hnone : ((targets items).find? fun l =>
      !(Std.TreeSet.ofList ((labels items).map Label.name)).contains l.name) = none := by
    rw [List.find?_eq_none]
    intro l hl
    have hmem : l.name ∈ (labels items).map Label.name := List.mem_map_of_mem (ht l hl)
    simp [hmem]
  simp only [hnone]

theorem nodup_names {items : List Item} (hnd : (labels items).Nodup) :
    ((labels items).map Label.name).Nodup :=
  hnd.map fun _ _ h => Label.eq_of_name h

end Code

/-! ## Finishing -/

namespace Generator

variable {g : Generator} {p : Program}

/-- The counting walk over finished code goes through and ends with an empty stack. -/
theorem finished_walk (h : empty.generate p = (.ok (), g)) :
    ∃ w, Code.walk g.finishedItems = .ok w ∧ w.depth = some 0 := by
  obtain ⟨Δ, hΔ⟩ := finished_types h
  obtain ⟨js, _, _, hflows⟩ := hΔ []
  obtain ⟨w, hw, hfollows⟩ := Code.walk_of_flows hflows .start
  exact ⟨w, hw, hfollows.depth⟩

/-- Code that passes both checks is finished, unless its stack is too deep. -/
theorem finish_of_walk {w : Code.Walk} (hlabels : Code.checkLabels g.finishedItems = .ok ())
    (hw : Code.walk g.finishedItems = .ok w) :
    g.finish = if Code.depthLimit < w.deepest then .error ⟨.link (.tooDeep w.deepest), none⟩
      else .ok ⟨g.finishedItems, w.deepest, g.frame.locals⟩ := by
  unfold finish Assembly.ofItems Code.maxDepth
  rw [hlabels, hw]
  by_cases hd : Code.depthLimit < w.deepest
  · simp only [bind, Except.bind, if_pos hd]
    rfl
  · simp only [bind, Except.bind, if_neg hd]
    rfl

/--
**Generated code links.** Each name is placed once, each jump has exactly one place to go,
counting the operand stack goes through and ends at zero; the one thing that can keep the
code from being finished is the depth of that stack.
-/
theorem finish_of_generate (h : empty.generate p = (.ok (), g)) :
    ((Code.labels g.finishedItems).map Label.name).Nodup ∧
    (∀ l ∈ Code.targets g.finishedItems, (Code.labels g.finishedItems).count l = 1) ∧
    ∃ w, Code.walk g.finishedItems = .ok w ∧ w.depth = some 0 ∧
      g.finish = if Code.depthLimit < w.deepest then .error ⟨.link (.tooDeep w.deepest), none⟩
        else .ok ⟨g.finishedItems, w.deepest, g.frame.locals⟩ := by
  have hnd := finished_labels_nodup h
  have htargets : ∀ l ∈ Code.targets g.finishedItems, l ∈ Code.labels g.finishedItems :=
    fun l hl => finished_targets h hl
  refine ⟨Code.nodup_names hnd, fun l hl => List.count_eq_one_of_mem hnd (htargets l hl), ?_⟩
  obtain ⟨w, hw, hdepth⟩ := finished_walk h
  exact ⟨w, hw, hdepth, finish_of_walk (Code.checkLabels_eq_ok hnd htargets) hw⟩

theorem finish_of_generate_greeting :
    ∃ g w, empty.generate .greeting = (.ok (), g) ∧ Code.walk g.finishedItems = .ok w ∧
      w.depth = some 0 ∧ g.finish = .ok ⟨g.finishedItems, w.deepest, g.frame.locals⟩ := by
  obtain ⟨a, ha⟩ := Program.greeting_assembles
  obtain ⟨g, hg, hfin⟩ := Program.assemble_eq_ok.mp ha
  obtain ⟨_, _, w, hw, hdepth, hfinish⟩ := finish_of_generate hg
  refine ⟨g, w, hg, hw, hdepth, ?_⟩
  by_cases hd : Code.depthLimit < w.deepest
  · rw [if_pos hd, hfin] at hfinish
    cases hfinish
  · rw [hfinish, if_neg hd]

end Generator

end Dam
