import Dam.Proofs.LabelGroups

/-!
# Control flow

A path through code starts at the first item, falls through or jumps, and takes
either outcome of every conditional branch. A property of all paths is proved by
attaching a fact to every position and checking the facts edge by edge, which is
what a `Certificate` is.

Certificates of generated code are not written down position by position. Code is
certified in one linear walk (`Flows`), with the facts at the labels given in advance,
and walks over the parts of a phrase compose. Behind a `goto` nothing is known, so
the walk can only go on at a label, and only at one that was jumped to before: code
that nothing leads to has no certificate.
-/

namespace Dam

theorem Instr.endsFlow_of_target? {i : Instr} (h : i.target? = none) : i.endsFlow = false := by
  cases i <;> first | rfl | cases h

namespace Code

/-! ## Code inside code -/

/-- The code `c` stands in `items` from position `k` on. -/
def At (items : List Item) : Nat → List Item → Prop
  | _, [] => True
  | k, x :: c => items[k]? = some x ∧ At items (k + 1) c

@[simp] theorem at_nil (items : List Item) (k : Nat) : At items k [] := trivial

@[simp] theorem at_cons (items : List Item) (k : Nat) (x : Item) (c : List Item) :
    At items k (x :: c) ↔ items[k]? = some x ∧ At items (k + 1) c := Iff.rfl

@[simp] theorem at_append (items : List Item) (k : Nat) (a b : List Item) :
    At items k (a ++ b) ↔ At items k a ∧ At items (k + a.length) b := by
  induction a generalizing k with
  | nil => simp
  | cons x a ih =>
      rw [List.cons_append, at_cons, at_cons, ih, List.length_cons, and_assoc]
      rw [show k + 1 + a.length = k + (a.length + 1) by omega]

theorem at_middle (a b c : List Item) : At (a ++ b ++ c) a.length b := by
  induction b generalizing a with
  | nil => trivial
  | cons x b ih =>
      refine ⟨by simp, ?_⟩
      simpa using ih (a ++ [x])

end Code

/-- Finished code is what stands in front of the program, and the code of the program. -/
theorem Generator.at_finishedItems (g : Generator) :
    Code.At g.finishedItems 0 g.prologue ∧
      Code.At g.finishedItems (0 + g.prologue.length) g.items := by
  rw [← Code.at_append, Generator.finishedItems_eq]
  simpa using Code.at_middle [] (g.prologue ++ g.items) []

namespace Code

/-! ## Paths -/

/--
`Path items h i`: a path from the first item leads to position `i`. The history `h`
holds the instructions it has executed, the most recent one first.
-/
inductive Path (items : List Item) : List Instr → Nat → Prop
  | start : Path items [] 0
  | label {h : List Instr} {i : Nat} {l : Label} :
      Path items h i → items[i]? = some (.label l) → Path items h (i + 1)
  | fall {h : List Instr} {i : Nat} {k : Instr} :
      Path items h i → items[i]? = some (.op k) → k.endsFlow = false → Path items (k :: h) (i + 1)
  | jump {h : List Instr} {i j : Nat} {k : Instr} {l : Label} :
      Path items h i → items[i]? = some (.op k) → k.target? = some l →
      items[j]? = some (.label l) → Path items (k :: h) j

section

variable {D : Type} (step : Instr → D → D → Prop) (le : D → D → Prop)

/-- A fact at every position that every edge of the control flow respects. -/
structure Certificate (items : List Item) (A : Nat → D) : Prop where
  op : ∀ i k, items[i]? = some (.op k) → ∃ d, step k (A i) d ∧
    (k.endsFlow = false → le d (A (i + 1))) ∧
    ∀ l j, k.target? = some l → items[j]? = some (.label l) → le d (A j)
  label : ∀ i l, items[i]? = some (.label l) → le (A i) (A (i + 1))

variable {step le}

/-- What a certificate says holds on every path. -/
theorem Certificate.sound {items : List Item} {A : Nat → D} (hA : Certificate step le items A)
    (holds : D → List Instr → Prop)
    (hle : ∀ d d' h, le d d' → holds d h → holds d' h)
    (hstep : ∀ k d d' h, step k d d' → holds d h → holds d' (k :: h))
    (hstart : holds (A 0) []) {h : List Instr} {i : Nat} (hp : Path items h i) :
    holds (A i) h := by
  induction hp with
  | start => exact hstart
  | label _ hi ih => exact hle _ _ _ (hA.label _ _ hi) ih
  | fall _ hi hk ih =>
      obtain ⟨d, hd, hfall, _⟩ := hA.op _ _ hi
      exact hle _ _ _ (hfall hk) (hstep _ _ _ _ hd ih)
  | jump _ hi hl hj ih =>
      obtain ⟨d, hd, _, hjump⟩ := hA.op _ _ hi
      exact hle _ _ _ (hjump _ _ hl hj) (hstep _ _ _ _ hd ih)

end

/-! ## Linear walks -/

/-- A point of a walk: the fact there, unless nothing falls through, and the labels jumped to. -/
structure Point (D : Type) where
  here : Option D
  jumped : List Label

section

variable {D : Type} (step : Instr → D → D → Prop) (le : D → D → Prop) (Δ : Label → D)

/-- A walk over code that carries a fact along, given the facts `Δ` at the labels. -/
inductive Flows : Point D → List Item → Point D → Prop
  | nil {p : Point D} : Flows p [] p
  | fall {d : D} {js : List Label} {l : Label} {c : List Item} {q : Point D} :
      le d (Δ l) → Flows ⟨some (Δ l), js⟩ c q → Flows ⟨some d, js⟩ (.label l :: c) q
  | land {js : List Label} {l : Label} {c : List Item} {q : Point D} :
      l ∈ js → Flows ⟨some (Δ l), js⟩ c q → Flows ⟨none, js⟩ (.label l :: c) q
  | next {d d' : D} {js : List Label} {i : Instr} {c : List Item} {q : Point D} :
      step i d d' → i.target? = none → Flows ⟨some d', js⟩ c q → Flows ⟨some d, js⟩ (.op i :: c) q
  | branch {d d' : D} {js : List Label} {i : Instr} {l : Label} {c : List Item} {q : Point D} :
      step i d d' → i.target? = some l → le d' (Δ l) →
      Flows ⟨if i.endsFlow then none else some d', l :: js⟩ c q →
      Flows ⟨some d, js⟩ (.op i :: c) q

variable {step le Δ}

theorem Flows.append {p q r : Point D} {a b : List Item} (h : Flows step le Δ p a q)
    (h' : Flows step le Δ q b r) : Flows step le Δ p (a ++ b) r := by
  induction h with
  | nil => exact h'
  | fall hle _ ih => exact .fall hle (ih h')
  | land hl _ ih => exact .land hl (ih h')
  | next hs ht _ ih => exact .next hs ht (ih h')
  | branch hs ht hle _ ih => exact .branch hs ht hle (ih h')

/-! ## From a walk to a certificate -/

variable (step le Δ)

/-- The facts a walk attaches to the positions; at a label it is the one given in advance. -/
structure Traced (p : Point D) (items : List Item) (q : Point D) (A : Nat → D) : Prop where
  first : ∀ d, p.here = some d → le d (A 0)
  last : ∀ d, q.here = some d → A items.length = d
  op : ∀ i k, items[i]? = some (.op k) → ∃ d, step k (A i) d ∧
    (k.endsFlow = false → le d (A (i + 1))) ∧ ∀ l, k.target? = some l → le d (Δ l)
  label : ∀ i l, items[i]? = some (.label l) → A i = Δ l ∧ le (A i) (A (i + 1))

variable {step le Δ}

/-- Facts with one more in front. -/
def factsFrom (d : D) (A : Nat → D) : Nat → D
  | 0 => d
  | i + 1 => A i

theorem Traced.cons {p p' q : Point D} {x : Item} {c : List Item} {A : Nat → D} {a : D}
    (h : Traced step le Δ p' c q A) (hfirst : ∀ d, p.here = some d → le d a)
    (hop : ∀ k, x = .op k → ∃ d, step k a d ∧ (k.endsFlow = false → le d (A 0)) ∧
      ∀ l, k.target? = some l → le d (Δ l))
    (hlabel : ∀ l, x = .label l → a = Δ l ∧ le a (A 0)) :
    Traced step le Δ p (x :: c) q (factsFrom a A) := by
  refine ⟨hfirst, h.last, ?_, ?_⟩
  · intro i k hi
    cases i with
    | zero => exact hop k (Option.some.inj hi)
    | succ i => exact h.op i k hi
  · intro i l hi
    cases i with
    | zero => exact hlabel l (Option.some.inj hi)
    | succ i => exact h.label i l hi

theorem Flows.traced (hrefl : ∀ d, le d d) {p q : Point D} {c : List Item}
    (h : Flows step le Δ p c q) : ∃ A, Traced step le Δ p c q A := by
  induction h with
  | @nil p =>
      refine ⟨fun _ => p.here.getD (Δ ⟨""⟩), fun d hd => ?_, fun d hd => ?_, ?_, ?_⟩
      · rw [hd]; exact hrefl d
      · rw [hd]; rfl
      · intro i k hi; simp at hi
      · intro i l hi; simp at hi
  | @fall d js l c q hle _ ih =>
      obtain ⟨A, hA⟩ := ih
      refine ⟨_, hA.cons (a := Δ l) ?_ ?_ ?_⟩
      · rintro _ ⟨⟩; exact hle
      · rintro k ⟨⟩
      · rintro _ ⟨⟩; exact ⟨rfl, hA.first _ rfl⟩
  | @land js l c q _ _ ih =>
      -- nothing falls through to this label, so any fact would do in front of it
      obtain ⟨A, hA⟩ := ih
      refine ⟨_, hA.cons (a := Δ l) ?_ ?_ ?_⟩
      · rintro _ ⟨⟩
      · rintro k ⟨⟩
      · rintro _ ⟨⟩; exact ⟨rfl, hA.first _ rfl⟩
  | @next d d' js i c q hs ht _ ih =>
      obtain ⟨A, hA⟩ := ih
      refine ⟨_, hA.cons (a := d) ?_ ?_ ?_⟩
      · rintro _ ⟨⟩; exact hrefl d
      · rintro k ⟨⟩
        exact ⟨d', hs, fun _ => hA.first _ rfl, fun l hl => by rw [ht] at hl; cases hl⟩
      · rintro l ⟨⟩
  | @branch d d' js i l c q hs ht hle _ ih =>
      obtain ⟨A, hA⟩ := ih
      refine ⟨_, hA.cons (a := d) ?_ ?_ ?_⟩
      · rintro _ ⟨⟩; exact hrefl d
      · rintro k ⟨⟩
        refine ⟨d', hs, fun hf => hA.first _ (by simp [hf]), fun l' hl => ?_⟩
        rw [ht] at hl
        cases hl
        exact hle
      · rintro l ⟨⟩

/-- **A walk over all items certifies them.** -/
theorem Flows.certificate (hrefl : ∀ d, le d d) {d d' : D} {js js' : List Label} {c : List Item}
    (h : Flows step le Δ ⟨some d, js⟩ c ⟨some d', js'⟩) :
    ∃ A, Certificate step le c A ∧ le d (A 0) ∧ A c.length = d' := by
  obtain ⟨A, hA⟩ := h.traced hrefl
  refine ⟨A, ⟨?_, fun i l hi => (hA.label i l hi).2⟩, hA.first d rfl, hA.last d' rfl⟩
  intro i k hi
  obtain ⟨e, hs, hfall, hjump⟩ := hA.op i k hi
  refine ⟨e, hs, hfall, fun l j hl hj => ?_⟩
  rw [(hA.label j l hj).1]
  exact hjump l hl

/-! ## Walks over the parts of a phrase -/

variable (step le Δ)

/--
`c` carries the fact `d` to `d'`, whatever was jumped to before, and jumps at least
to the labels in `outer`.
-/
def Carries (outer : List Label) (c : List Item) (d d' : D) : Prop :=
  ∀ js, ∃ js', (∀ l ∈ js, l ∈ js') ∧ (∀ l ∈ outer, l ∈ js') ∧
    Flows step le Δ ⟨some d, js⟩ c ⟨some d', js'⟩

variable {step le Δ}

theorem Carries.nil (d : D) : Carries step le Δ [] [] d d :=
  fun js => ⟨js, fun _ h => h, by simp, .nil⟩

theorem Carries.append {o₁ o₂ : List Label} {c₁ c₂ : List Item} {d d₁ d₂ : D}
    (h₁ : Carries step le Δ o₁ c₁ d d₁) (h₂ : Carries step le Δ o₂ c₂ d₁ d₂) :
    Carries step le Δ (o₁ ++ o₂) (c₁ ++ c₂) d d₂ := by
  intro js
  obtain ⟨js₁, hsub₁, hout₁, hf₁⟩ := h₁ js
  obtain ⟨js₂, hsub₂, hout₂, hf₂⟩ := h₂ js₁
  refine ⟨js₂, fun l hl => hsub₂ l (hsub₁ l hl), fun l hl => ?_, hf₁.append hf₂⟩
  rcases List.mem_append.mp hl with h | h
  · exact hsub₂ l (hout₁ l h)
  · exact hout₂ l h

theorem Carries.weaken {o o' : List Label} {c : List Item} {d d' : D}
    (h : Carries step le Δ o c d d') (ho : ∀ l ∈ o', l ∈ o) : Carries step le Δ o' c d d' := by
  intro js
  obtain ⟨js', hsub, hout, hf⟩ := h js
  exact ⟨js', hsub, fun l hl => hout l (ho l hl), hf⟩

/-- An instruction that jumps nowhere. -/
theorem Carries.next {i : Instr} {d d' : D} (hs : step i d d') (ht : i.target? = none) :
    Carries step le Δ [] [.op i] d d' :=
  fun js => ⟨js, fun _ h => h, by simp, .next hs ht .nil⟩

/-- A conditional branch. -/
theorem Carries.branch {i : Instr} {l : Label} {d d' : D} (hs : step i d d')
    (ht : i.target? = some l) (hend : i.endsFlow = false) (hle : le d' (Δ l)) :
    Carries step le Δ [l] [.op i] d d' := by
  intro js
  refine ⟨l :: js, fun _ h => List.mem_cons_of_mem _ h, by simp, .branch hs ht hle ?_⟩
  rw [hend]
  exact .nil

/-- A label that is fallen through to. -/
theorem Carries.fall {l : Label} {d : D} (hle : le d (Δ l)) :
    Carries step le Δ [] [.label l] d (Δ l) :=
  fun js => ⟨js, fun _ h => h, by simp, .fall hle .nil⟩

/-- A jump to `a` behind the code, and then the label `b`, which the code jumps to. -/
theorem Carries.turn {o : List Label} {a b : Label} {c : List Item} {d d' : D}
    (h : Carries step le Δ o c d d') (hb : b ∈ o) (hs : step (.goto a) d' d')
    (hle : le d' (Δ a)) :
    Carries step le Δ (a :: o) (c ++ [.op (.goto a), .label b]) d (Δ b) := by
  intro js
  obtain ⟨js', hsub, hout, hf⟩ := h js
  refine ⟨a :: js', fun l hl => List.mem_cons_of_mem _ (hsub l hl), ?_, ?_⟩
  · intro l hl
    rcases List.mem_cons.mp hl with rfl | hl
    · exact List.mem_cons_self
    · exact List.mem_cons_of_mem _ (hout l hl)
  · exact hf.append (.branch hs rfl hle (.land (List.mem_cons_of_mem _ (hout b hb)) .nil))

/-! ## Facts at labels -/

/-- `Δ` has the facts listed in `Γ`. -/
def Agrees (Δ : Label → D) (Γ : List (Label × D)) : Prop := ∀ r ∈ Γ, Δ r.1 = r.2

@[simp] theorem agrees_nil (Δ : Label → D) : Agrees Δ [] := by simp [Agrees]

@[simp] theorem agrees_cons (Δ : Label → D) (l : Label) (d : D) (Γ : List (Label × D)) :
    Agrees Δ ((l, d) :: Γ) ↔ Δ l = d ∧ Agrees Δ Γ := by
  simp [Agrees]

@[simp] theorem agrees_append (Δ : Label → D) (Γ Γ' : List (Label × D)) :
    Agrees Δ (Γ ++ Γ') ↔ Agrees Δ Γ ∧ Agrees Δ Γ' := by
  simp only [Agrees, List.mem_append]
  constructor
  · intro h; exact ⟨fun r hr => h r (.inl hr), fun r hr => h r (.inr hr)⟩
  · rintro ⟨h, h'⟩ r (hr | hr)
    · exact h r hr
    · exact h' r hr

/-- Labels that are listed once can have any facts. -/
theorem exists_agrees [Inhabited D] (Γ : List (Label × D)) (h : (Γ.map Prod.fst).Nodup) :
    ∃ Δ, Agrees Δ Γ := by
  induction Γ with
  | nil => exact ⟨fun _ => default, agrees_nil _⟩
  | cons r Γ ih =>
      rw [List.map_cons, List.nodup_cons] at h
      obtain ⟨Δ, hΔ⟩ := ih h.2
      refine ⟨Function.update Δ r.1 r.2, ?_⟩
      rw [agrees_cons]
      refine ⟨Function.update_self .., fun r' hr' => ?_⟩
      have hne : r'.1 ≠ r.1 := fun heq => h.1 (heq ▸ List.mem_map_of_mem hr')
      rw [Function.update_of_ne hne]
      exact hΔ r' hr'

end

end Code

end Dam
