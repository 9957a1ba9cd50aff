import Dam.Proofs.Emission
import Mathlib.Data.List.Nodup
import Std.Data.String.ToNat

/-!
# Groups of labels

Every construct takes a fresh group number and places labels of that group only.
The name of a label determines its stem and its number, since no stem has a digit
in it, so labels of different groups never meet, and neither do labels of one group
with different stems. Hence a phrase places each of its labels once, and jumps
either to one of them or to the target it was given.
-/

namespace Dam

namespace Label

theorem eq_of_name {l l' : Label} (h : l.name = l'.name) : l = l' := by
  cases l
  cases l'
  exact congrArg Label.mk h

/-- The stems in use. -/
def stems : List String :=
  ["FALSE", "BOOL_END", "OR_RHS", "OR_TRUE", "THEN", "ELSE", "END", "LOOP_START", "LOOP_END"]

theorem not_isDigit_of_mem_stems {stem : String} (h : stem ∈ stems) :
    ∀ c ∈ stem.toList, (!c.isDigit) = true := by
  have hall : stems.all (fun stem => stem.toList.all fun c => !c.isDigit) = true := by decide
  exact List.all_eq_true.mp (List.all_eq_true.mp hall stem h)

/-- The stem is what stands in front of the first digit. -/
theorem takeWhile_numbered {stem : String} (h : stem ∈ stems) (n : Nat) :
    (numbered stem n).name.toList.takeWhile (fun c => !c.isDigit) = stem.toList := by
  have hdigits : (Nat.toDigits 10 n).takeWhile (fun c => !c.isDigit) = [] := by
    cases hd : Nat.toDigits 10 n with
    | nil => rfl
    | cons c cs =>
        have hc : c.isDigit = true :=
          Nat.isDigit_of_mem_toDigits (b := 10) (n := n) (by decide) (by decide)
            (by rw [hd]; exact List.mem_cons_self)
        simp [hc]
  show (stem ++ n.repr).toList.takeWhile _ = _
  rw [String.toList_append, Nat.toList_repr,
    List.takeWhile_append_of_pos (not_isDigit_of_mem_stems h), hdigits, List.append_nil]

/-- A name determines stem and number. -/
theorem numbered_inj {stem stem' : String} {n n' : Nat} (h : stem ∈ stems) (h' : stem' ∈ stems)
    (heq : numbered stem n = numbered stem' n') : stem = stem' ∧ n = n' := by
  have hstem : stem = stem' := by
    rw [← String.toList_inj, ← takeWhile_numbered h n, ← takeWhile_numbered h' n', heq]
  subst hstem
  have hname : (stem ++ n.repr).toList = (stem ++ n'.repr).toList :=
    congrArg (fun l => l.name.toList) heq
  rw [String.toList_append, String.toList_append, List.append_cancel_left_eq,
    String.toList_inj] at hname
  exact ⟨rfl, Nat.repr_inj.mp hname⟩

/-- A label of one of the groups from `a` up to `b`. -/
def InGroups (a b : Nat) (l : Label) : Prop :=
  ∃ stem ∈ stems, ∃ n, a ≤ n ∧ n < b ∧ l = numbered stem n

theorem InGroups.mono {a a' b b' : Nat} {l : Label} (h : InGroups a b l) (ha : a' ≤ a)
    (hb : b ≤ b') : InGroups a' b' l := by
  obtain ⟨stem, hstem, n, hle, hlt, rfl⟩ := h
  exact ⟨stem, hstem, n, by omega, by omega, rfl⟩

theorem InGroups.disjoint {a b c d : Nat} {l : Label} (h : InGroups a b l) (h' : InGroups c d l)
    (hle : b ≤ c) : False := by
  obtain ⟨stem, hstem, n, _, hlt, rfl⟩ := h
  obtain ⟨stem', hstem', n', hle', _, heq⟩ := h'
  have := (numbered_inj hstem hstem' heq).2
  omega

end Label

/-! ## Labels and targets of code -/

namespace Code

@[simp] theorem labels_nil : labels [] = [] := rfl

@[simp] theorem labels_append (a b : List Item) : labels (a ++ b) = labels a ++ labels b :=
  List.filterMap_append

@[simp] theorem labels_label (l : Label) (c : List Item) :
    labels (.label l :: c) = l :: labels c := rfl

@[simp] theorem labels_op (i : Instr) (c : List Item) : labels (.op i :: c) = labels c := rfl

theorem mem_labels {l : Label} {c : List Item} : l ∈ labels c ↔ Item.label l ∈ c := by
  unfold labels
  rw [List.mem_filterMap]
  constructor
  · rintro ⟨x, hx, hl⟩
    cases x with
    | label l' => rw [← show l' = l from Option.some.inj hl]; exact hx
    | op i => cases hl
  · intro h; exact ⟨_, h, rfl⟩

@[simp] theorem targets_nil : targets [] = [] := rfl

@[simp] theorem targets_append (a b : List Item) : targets (a ++ b) = targets a ++ targets b := by
  simp [targets, instrs]

@[simp] theorem targets_label (l : Label) (c : List Item) :
    targets (.label l :: c) = targets c := rfl

@[simp] theorem targets_op (i : Instr) (c : List Item) :
    targets (.op i :: c) = i.target?.toList ++ targets c := by
  cases h : i.target? <;> simp [targets, instrs, Item.instr?, h]

end Code

@[simp] theorem Comparison.labels_branch (k : Comparison) (t : Label) (τ : ValueType) :
    Code.labels (k.branch t τ) = [] := by
  cases τ <;> rfl

@[simp] theorem Comparison.targets_branch (k : Comparison) (t : Label) (τ : ValueType) :
    Code.targets (k.branch t τ) = [t] := by
  cases τ <;> cases k <;> rfl

theorem Literal.target?_push {v : Literal} {i : Instr} {τ : ValueType}
    (h : v.push? = some (i, τ)) : i.target? = none := by
  cases v with
  | null => cases h
  | number x => cases h; rfl
  | string s => cases h; rfl
  | bool b => cases h; rfl

theorem Gen.target?_arithInstr {op : ArithOp} {τ : ValueType} {i : Instr}
    (h : Gen.arithInstr? op τ = some i) : i.target? = none := by
  rcases Gen.arithInstr?_cases h with ⟨_, rfl⟩ | ⟨_, rfl⟩ <;> rfl

/-! ## A phrase places its labels once -/

/-- The labels outside an expression that it may jump to. -/
def ExprPosition.outer : ExprPosition → List Label
  | value _ => []
  | test t => [t]

@[simp] theorem ExprPosition.outer_value (τ : ValueType) : (value τ).outer = [] := rfl

@[simp] theorem ExprPosition.outer_test (t : Label) : (test t).outer = [t] := rfl

/--
The labels of code emitted between two scopes: they are of groups taken in between,
each is placed once, and jumps go to one of them or to a label in `outer`.
-/
structure Linked (s s' : Scope) (outer : List Label) (c : List Item) : Prop where
  le : s.group ≤ s'.group
  mem : ∀ l ∈ Code.labels c, l.InGroups s.group s'.group
  nodup : (Code.labels c).Nodup
  targets : ∀ l ∈ Code.targets c, l ∈ Code.labels c ∨ l ∈ outer

namespace Linked

variable {s s₁ s₂ : Scope} {o o₁ o₂ : List Label} {c c₁ c₂ : List Item}

theorem nil (s : Scope) : Linked s s [] [] :=
  ⟨Nat.le_refl _, by simp, by simp, by simp⟩

theorem append (h₁ : Linked s s₁ o₁ c₁) (h₂ : Linked s₁ s₂ o₂ c₂) :
    Linked s s₂ (o₁ ++ o₂) (c₁ ++ c₂) := by
  refine ⟨Nat.le_trans h₁.le h₂.le, ?_, ?_, ?_⟩
  · intro l hl
    rcases List.mem_append.mp (Code.labels_append c₁ c₂ ▸ hl) with h | h
    · exact (h₁.mem l h).mono (Nat.le_refl _) h₂.le
    · exact (h₂.mem l h).mono h₁.le (Nat.le_refl _)
  · rw [Code.labels_append, List.nodup_append]
    refine ⟨h₁.nodup, h₂.nodup, ?_⟩
    rintro l hl _ hl' rfl
    exact (h₁.mem l hl).disjoint (h₂.mem l hl') (Nat.le_refl _)
  · intro l hl
    rw [Code.targets_append, List.mem_append] at hl
    rw [Code.labels_append, List.mem_append, List.mem_append]
    rcases hl with h | h
    · rcases h₁.targets l h with h' | h'
      · exact .inl (.inl h')
      · exact .inr (.inl h')
    · rcases h₂.targets l h with h' | h'
      · exact .inl (.inr h')
      · exact .inr (.inr h')

/-- Only the set of outer labels matters, and only the counter of the last scope. -/
theorem weaken (h : Linked s s₁ o₁ c) (hg : s₁.group = s₂.group) (ho : ∀ l ∈ o₁, l ∈ o₂) :
    Linked s s₂ o₂ c :=
  ⟨hg ▸ h.le, hg ▸ h.mem, h.nodup, fun l hl => (h.targets l hl).imp id (ho l)⟩

/-- Instructions behind the code. They may jump outside. -/
theorem behind (h : Linked s s₁ o₁ c₁) (hl : Code.labels c₂ = []) (ho : ∀ l ∈ o₁, l ∈ o₂)
    (ht : ∀ l ∈ Code.targets c₂, l ∈ o₂) : Linked s s₁ o₂ (c₁ ++ c₂) := by
  refine ⟨h.le, by simpa [hl] using h.mem, by simpa [hl] using h.nodup, ?_⟩
  intro l hmem
  rw [Code.targets_append, List.mem_append] at hmem
  rw [Code.labels_append, hl, List.append_nil]
  rcases hmem with hmem | hmem
  · exact (h.targets l hmem).imp id (ho l)
  · exact .inr (ht l hmem)

/-- Instructions that jump nowhere, behind the code. -/
theorem plain (h : Linked s s₁ o c₁) (hl : Code.labels c₂ = []) (ht : Code.targets c₂ = []) :
    Linked s s₁ o (c₁ ++ c₂) :=
  h.behind hl (fun _ h => h) (by simp [ht])

/--
A construct with a group of its own. `c'` is its code: it places the labels `new` of
that group besides those of its parts `c`, and its jumps are theirs and jumps to `new`.
-/
theorem construct {c' : List Item} (h : Linked s.next s₁ o₁ c) (new : List String)
    (hnew : new.Nodup) (hstems : ∀ stem ∈ new, stem ∈ Label.stems)
    (hlabels : (Code.labels c').Perm
      (new.map (fun stem => Label.numbered stem s.group) ++ Code.labels c))
    (htargets : ∀ l ∈ Code.targets c', l ∈ Code.targets c ∨
      l ∈ new.map (fun stem => Label.numbered stem s.group))
    (hout : ∀ l ∈ o₁, l ∈ o₂ ∨ l ∈ new.map (fun stem => Label.numbered stem s.group)) :
    Linked s s₁ o₂ c' := by
  have hgroup : s.group + 1 ≤ s₁.group := h.le
  have hown : ∀ l ∈ new.map (fun stem => Label.numbered stem s.group),
      l.InGroups s.group (s.group + 1) := by
    intro l hl
    obtain ⟨stem, hstem, rfl⟩ := List.mem_map.mp hl
    exact ⟨stem, hstems stem hstem, s.group, Nat.le_refl _, Nat.lt_succ_self _, rfl⟩
  refine ⟨by omega, ?_, ?_, ?_⟩
  · intro l hl
    rcases List.mem_append.mp (hlabels.mem_iff.mp hl) with h' | h'
    · exact (hown l h').mono (Nat.le_refl _) hgroup
    · exact (h.mem l h').mono (Nat.le_succ _) (Nat.le_refl _)
  · rw [hlabels.nodup_iff, List.nodup_append]
    refine ⟨?_, h.nodup, ?_⟩
    · refine hnew.map_on ?_
      intro a ha b hb heq
      exact (Label.numbered_inj (hstems a ha) (hstems b hb) heq).1
    · rintro l hl _ hl' rfl
      exact (hown l hl).disjoint (h.mem l hl') (Nat.le_refl _)
  · intro l hl
    rw [hlabels.mem_iff, List.mem_append]
    rcases htargets l hl with h' | h'
    · rcases h.targets l h' with hin | hout'
      · exact .inl (.inr hin)
      · exact (hout l hout').symm.imp .inl id
    · exact .inl (.inl h')

end Linked

theorem ExprCode.linked {e : Expr} {pos : ExprPosition} {s s' : Scope}
    {ts : List (Nat × ValueType)} {c : List Item} (h : ExprCode e pos s s' ts c) :
    Linked s s' pos.outer c := by
  induction h with
  | literal hv => exact (Linked.nil _).plain rfl (by simp [Literal.target?_push hv])
  | var _ => exact (Linked.nil _).plain rfl rfl
  | not _ ih => exact ih.plain rfl rfl
  | neg _ ih => exact ih.plain rfl rfl
  | arith _ _ hi ih₁ ih₂ =>
      exact (ih₁.append ih₂).plain rfl (by simp [Gen.target?_arithInstr hi])
  | materialize _ _ ih =>
      refine ih.construct ["FALSE", "BOOL_END"] (by decide) (by decide) ?_ ?_ ?_
      · exact List.perm_iff_count.mpr (by simp [materializeCode, List.count_cons]; omega)
      · simp [materializeCode, Instr.target?]; grind
      · simp
  | grouping _ ih => exact ih
  | assign _ _ ih => exact (ih.plain rfl rfl).weaken rfl (by simp)
  | compare _ _ ih₁ ih₂ =>
      exact (ih₁.append ih₂).behind (by simp) (by simp)
        (by simp)
  | and _ _ ih₁ ih₂ => exact (ih₁.append ih₂).weaken rfl (by simp)
  | or _ _ ih₁ ih₂ =>
      refine (ih₁.append ih₂).construct ["OR_RHS", "OR_TRUE"] (by decide) (by decide) ?_ ?_ ?_
      · exact List.perm_iff_count.mpr (by simp [List.count_cons]; omega)
      · simp [Instr.target?]; grind
      · simp
  | groupingTest _ ih => exact ih
  | branch _ _ ih =>
      exact ih.behind rfl (by simp) (by simp [Instr.target?])

theorem StmtCode.linked {st : Stmt} {s s' : Scope} {ts : List (Nat × ValueType)}
    {c : List Item} (h : StmtCode st s s' ts c) : Linked s s' [] c := by
  induction h with
  | declare he _ => exact (he.linked.plain rfl rfl).weaken rfl (by simp)
  | @print sp e τ s s' ts c he =>
      have hout : Linked s s [] [.op Gen.systemOut] := (Linked.nil s).plain rfl rfl
      exact (hout.append he.linked).plain rfl rfl
  | read _ _ => exact ((Linked.nil _).plain rfl rfl).weaken rfl (by simp)
  | ifThen he _ ih =>
      refine (he.linked.append ih).construct ["THEN", "END"] (by decide) (by decide) ?_ ?_ ?_
      · exact List.perm_iff_count.mpr (by simp [List.count_cons]; omega)
      · simp; grind
      · simp
  | ifElse he _ _ ih₁ ih₂ =>
      refine ((he.linked.append ih₁).append ih₂).construct ["THEN", "ELSE", "END"] (by decide)
        (by decide) ?_ ?_ ?_
      · exact List.perm_iff_count.mpr (by simp [List.count_cons]; omega)
      · simp [Instr.target?]; grind
      · simp
  | whileDo he _ ih =>
      refine (he.linked.append ih).construct ["LOOP_START", "LOOP_END"] (by decide) (by decide)
        ?_ ?_ ?_
      · exact List.perm_iff_count.mpr (by simp [List.count_cons]; omega)
      · simp [Instr.target?]; grind
      · simp
  | nil => exact .nil _
  | cons _ _ ih₁ ih₂ => exact ih₁.append ih₂
  | store he _ => exact (he.linked.plain rfl rfl).weaken rfl (by simp)
  | drop _ he => exact he.linked.plain rfl rfl

namespace Generator

variable {g : Generator} {p : Program}

@[simp] theorem labels_prologue (g : Generator) : Code.labels g.prologue = [] := by
  unfold prologue
  split <;> rfl

@[simp] theorem targets_prologue (g : Generator) : Code.targets g.prologue = [] := by
  unfold prologue
  split <;> rfl

/-- Finished code places its labels once. -/
theorem finished_labels_nodup (h : empty.generate p = (.ok (), g)) :
    (Code.labels g.finishedItems).Nodup := by
  obtain ⟨ts, hcode, _⟩ := generate_code h
  rw [finishedItems_eq, Code.labels_append, labels_prologue]
  exact hcode.linked.nodup

/-- Finished code jumps to labels that it places. -/
theorem finished_targets (h : empty.generate p = (.ok (), g)) {l : Label}
    (hl : l ∈ Code.targets g.finishedItems) : l ∈ Code.labels g.finishedItems := by
  obtain ⟨ts, hcode, _⟩ := generate_code h
  rw [finishedItems_eq, Code.targets_append, targets_prologue] at hl
  rw [finishedItems_eq, Code.labels_append, labels_prologue]
  rcases hcode.linked.targets l hl with h' | h'
  · exact h'
  · cases h'

end Generator

end Dam
