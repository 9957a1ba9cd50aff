import Dam.Proofs.Emission
import Mathlib.Logic.Function.Basic

/-!
# Slots of the frame

A variable is seen through two views of the frame, its type and its slot. Storing
into a variable, by a declaration or by an assignment, changes the type of that
variable and nothing else that was there before; the slots it meets are those it
leaves. So all slots that occur in generated code can be read off the frame at the
end of the pass.

Slots are owned: no two variables share one, and the scanner's belongs to no
variable.
-/

namespace Dam

namespace Frame

variable {f f' f'' : Frame} {x y : String} {τ : ValueType} {k : Nat}

theorem table_eq_some {v : Variable} :
    f.table[x]? = some v ↔ f.type? x = some v.type ∧ f.slot? x = some v.slot := by
  unfold type? slot?
  cases f.table[x]? with
  | none => simp
  | some w =>
      simp only [Option.map_some, Option.some.injEq]
      constructor
      · rintro rfl; exact ⟨rfl, rfl⟩
      · rintro ⟨ht, hs⟩; cases w; cases v; simp_all

/-! ## Slots are owned -/

/-- Every slot given out has one owner. -/
structure WellFormed (f : Frame) : Prop where
  /-- Variables have slots that were given out. -/
  bound : ∀ x k, f.slot? x = some k → reserved ≤ k ∧ k < f.locals
  /-- No two variables share a slot. -/
  inj : ∀ x y k, f.slot? x = some k → f.slot? y = some k → x = y
  /-- So has the scanner. -/
  scanner_bound : ∀ k, f.scanner = some k → reserved ≤ k ∧ k < f.locals
  /-- The scanner's slot is no variable's. -/
  scanner_ne : ∀ x k, f.scanner = some k → f.slot? x ≠ some k

theorem wellFormed_empty : WellFormed empty where
  bound := by intro x k h; simp [slot?, empty] at h
  inj := by intro x y k h; simp [slot?, empty] at h
  scanner_bound := by intro k h; cases h
  scanner_ne := by intro x k h; cases h

/-- Slots that were given out in `f` are the same in `f'`. -/
structure Keeps (f f' : Frame) : Prop where
  slot : ∀ x k, f.slot? x = some k → f'.slot? x = some k
  scanner : ∀ k, f.scanner = some k → f'.scanner = some k

theorem Keeps.refl (f : Frame) : f.Keeps f := ⟨fun _ _ h => h, fun _ h => h⟩

theorem Keeps.trans (h : f.Keeps f') (h' : f'.Keeps f'') : f.Keeps f'' :=
  ⟨fun x k hk => h'.slot x k (h.slot x k hk), fun k hk => h'.scanner k (h.scanner k hk)⟩

/-! ## Storing into a variable -/

/-- `f'` is `f` after a value of type `τ` was stored into `x`, which is at slot `k`. -/
structure Stores (f : Frame) (x : String) (τ : ValueType) (k : Nat) (f' : Frame) : Prop where
  slot : f'.slot? x = some k
  type : f'.type? = Function.update f.type? x (some τ)
  keeps : f.Keeps f'
  wellFormed : f.WellFormed → f'.WellFormed

theorem slot?_insert (t : Std.TreeMap String Variable) (v : Variable) (y : String) :
    (t.insert x v)[y]?.map Variable.slot =
      if x = y then some v.slot else t[y]?.map Variable.slot := by
  rw [Std.TreeMap.getElem?_insert]
  by_cases h : x = y
  · simp [h]
  · simp [h, Std.LawfulEqCmp.compare_eq_iff_eq]

theorem type?_insert (t : Std.TreeMap String Variable) (v : Variable) :
    (fun y => (t.insert x v)[y]?.map Variable.type) =
      Function.update (fun y => t[y]?.map Variable.type) x (some v.type) := by
  funext y
  rw [Std.TreeMap.getElem?_insert]
  by_cases h : x = y
  · subst h; simp
  · rw [Function.update_of_ne (Ne.symm h)]
    simp [h, Std.LawfulEqCmp.compare_eq_iff_eq]

/-- A known variable keeps its slot when its entry is replaced. -/
theorem slot?_retype {v : Variable} (hv : f.table[x]? = some v) :
    slot? { f with table := f.table.insert x ⟨τ, v.slot⟩ } = f.slot? := by
  funext y
  show (f.table.insert x ⟨τ, v.slot⟩)[y]?.map Variable.slot = _
  rw [slot?_insert]
  by_cases h : x = y
  · subst h; rw [if_pos rfl, (table_eq_some.mp hv).2]
  · rw [if_neg h]; rfl

theorem stores_retype {v : Variable} (hv : f.table[x]? = some v) :
    f.Stores x τ v.slot { f with table := f.table.insert x ⟨τ, v.slot⟩ } := by
  have hx : f.slot? x = some v.slot := (table_eq_some.mp hv).2
  have hslot := slot?_retype (τ := τ) hv
  refine ⟨by rw [hslot, hx], type?_insert _ _, ⟨fun y k h => by rw [hslot, h], fun k h => h⟩, ?_⟩
  intro hf
  refine ⟨fun y k h => ?_, fun y z k hy hz => ?_, hf.scanner_bound, fun y k h => ?_⟩
  · rw [hslot] at h; exact hf.bound y k h
  · rw [hslot] at hy hz; exact hf.inj y z k hy hz
  · rw [hslot]; exact hf.scanner_ne y k h

theorem nextSlot?_eq_some (h : f.nextSlot? = some k) : k = f.locals := by
  unfold nextSlot? at h
  dsimp only at h
  split at h
  · cases h
  · exact (Option.some.inj h).symm

/-- A new variable gets a slot that nothing else has. -/
theorem stores_new (hx : f.table[x]? = none) (hk : f.nextSlot? = some k) :
    f.Stores x τ k { f with
      table := f.table.insert x ⟨τ, k⟩
      declared := x :: f.declared
      allocated := f.allocated + 1 } := by
  have hnext := nextSlot?_eq_some hk
  have hnone : f.slot? x = none := by unfold slot?; rw [hx]; rfl
  have hslot : ∀ y, slot? { f with
      table := f.table.insert x ⟨τ, k⟩
      declared := x :: f.declared
      allocated := f.allocated + 1 } y = if x = y then some k else f.slot? y :=
    fun y => slot?_insert _ _ y
  refine ⟨by rw [hslot, if_pos rfl], type?_insert _ _, ⟨fun y j h => ?_, fun j h => h⟩, ?_⟩
  · rw [hslot, if_neg (by rintro rfl; rw [hnone] at h; cases h), h]
  · intro hf
    have hlocals : ∀ j, j < f.locals → j < Frame.locals { f with
        table := f.table.insert x ⟨τ, k⟩
        declared := x :: f.declared
        allocated := f.allocated + 1 } := by
      intro j hj; unfold locals at hj ⊢; dsimp only; omega
    refine ⟨fun y j h => ?_, fun y z j hy hz => ?_, fun j h => ?_, fun y j h hy => ?_⟩
    · rw [hslot] at h
      split at h
      · have hj : j = k := (Option.some.inj h).symm
        subst hj
        rw [hnext]
        unfold locals
        dsimp only
        omega
      · exact ⟨(hf.bound y j h).1, hlocals j (hf.bound y j h).2⟩
    · -- an old slot lies below the new one, so the two cannot meet
      rw [hslot] at hy hz
      split at hy <;> split at hz
      · rename_i h₁ h₂; rw [← h₁, ← h₂]
      · have := (hf.bound z j hz).2
        have hj : k = j := Option.some.inj hy
        omega
      · have := (hf.bound y j hy).2
        have hj : k = j := Option.some.inj hz
        omega
      · exact hf.inj y z j hy hz
    · exact ⟨(hf.scanner_bound j h).1, hlocals j (hf.scanner_bound j h).2⟩
    · rw [hslot] at hy
      split at hy
      · have := (hf.scanner_bound j h).2
        have hj : k = j := Option.some.inj hy
        omega
      · exact hf.scanner_ne y j h hy

theorem stores_of_assign (h : f.assign x τ = (some k, f')) : f.Stores x τ k f' := by
  unfold assign at h
  split at h
  · cases h
  · rename_i v hv
    cases h
    exact stores_retype hv

theorem stores_of_define (h : f.define x τ = (some k, f')) : f.Stores x τ k f' := by
  unfold define at h
  split at h
  · rename_i v hv
    cases h
    exact stores_retype hv
  · rename_i hx
    split at h
    · cases h
    · rename_i slot hslot
      cases h
      exact stores_new hx hslot

/-! ## The scanner -/

/-- `f'` is `f` after the scanner, which is at slot `k`, was asked for. -/
structure Opens (f : Frame) (k : Nat) (f' : Frame) : Prop where
  scanner : f'.scanner = some k
  type : f'.type? = f.type?
  keeps : f.Keeps f'
  wellFormed : f.WellFormed → f'.WellFormed

theorem opens_of_useScanner (h : f.useScanner = (some k, f')) : f.Opens k f' := by
  unfold useScanner at h
  split at h
  · rename_i slot hslot
    cases h
    exact ⟨hslot, rfl, .refl f, id⟩
  · rename_i hnone
    split at h
    · cases h
    · rename_i slot hslot
      cases h
      have hnext := nextSlot?_eq_some hslot
      refine ⟨rfl, rfl, ⟨fun _ _ h => h, fun j h => by rw [hnone] at h; cases h⟩, ?_⟩
      intro hf
      refine ⟨fun x j h => ?_, hf.inj, fun j h => ?_, fun x j h hx => ?_⟩
      · have := hf.bound x j h
        unfold locals at this ⊢
        dsimp only
        omega
      · have hj : k = j := Option.some.inj h
        subst hj
        rw [hnext]
        unfold locals
        dsimp only
        omega
      · have hj : k = j := Option.some.inj h
        have hlt : j < f.locals := (hf.bound x j hx).2
        omega

end Frame

/-! ## Along the pass -/

/-- What the pass does to the frame: slots given out stay, and stay owned. -/
structure Scope.FrameGrows (s s' : Scope) : Prop where
  keeps : s.frame.Keeps s'.frame
  wellFormed : s.frame.WellFormed → s'.frame.WellFormed

namespace Scope.FrameGrows

variable {s s₁ s₂ : Scope} {f : Frame} {x : String} {τ : ValueType} {k : Nat}

theorem refl (s : Scope) : s.FrameGrows s := ⟨.refl _, id⟩

theorem trans (h : s.FrameGrows s₁) (h' : s₁.FrameGrows s₂) : s.FrameGrows s₂ :=
  ⟨h.keeps.trans h'.keeps, fun hs => h'.wellFormed (h.wellFormed hs)⟩

/-- A group of labels has nothing to do with the frame. -/
theorem of_next (h : s.next.FrameGrows s₁) : s.FrameGrows s₁ := ⟨h.keeps, h.wellFormed⟩

theorem stores (h : s.FrameGrows s₁) (hst : s₁.frame.Stores x τ k f) :
    s.FrameGrows { s₁ with frame := f } :=
  h.trans ⟨hst.keeps, hst.wellFormed⟩

end Scope.FrameGrows

theorem ExprCode.frameGrows {e : Expr} {pos : ExprPosition} {s s' : Scope}
    {ts : List (Nat × ValueType)} {c : List Item} (h : ExprCode e pos s s' ts c) :
    s.FrameGrows s' := by
  induction h with
  | literal _ => exact .refl _
  | var _ => exact .refl _
  | not _ ih => exact ih
  | neg _ ih => exact ih
  | arith _ _ _ ih₁ ih₂ => exact ih₁.trans ih₂
  | materialize _ _ ih => exact ih.of_next
  | grouping _ ih => exact ih
  | assign _ hf ih => exact ih.stores (Frame.stores_of_assign hf)
  | compare _ _ ih₁ ih₂ => exact ih₁.trans ih₂
  | and _ _ ih₁ ih₂ => exact ih₁.trans ih₂
  | or _ _ ih₁ ih₂ => exact ih₁.of_next.trans ih₂
  | groupingTest _ ih => exact ih
  | branch _ _ ih => exact ih

theorem StmtCode.frameGrows {st : Stmt} {s s' : Scope} {ts : List (Nat × ValueType)}
    {c : List Item} (h : StmtCode st s s' ts c) : s.FrameGrows s' := by
  induction h with
  | declare he hf => exact he.frameGrows.stores (Frame.stores_of_define hf)
  | print he => exact he.frameGrows
  | read hs hf =>
      have ho := Frame.opens_of_useScanner hs
      have hst := Frame.stores_of_assign hf
      exact ⟨ho.keeps.trans hst.keeps, fun h => hst.wellFormed (ho.wellFormed h)⟩
  | ifThen he _ ih => exact he.frameGrows.of_next.trans ih
  | ifElse he _ _ ih₁ ih₂ => exact (he.frameGrows.of_next.trans ih₁).trans ih₂
  | whileDo he _ ih => exact he.frameGrows.of_next.trans ih
  | nil => exact .refl _
  | cons _ _ ih₁ ih₂ => exact ih₁.trans ih₂
  | store he hf => exact he.frameGrows.stores (Frame.stores_of_assign hf)
  | drop _ he => exact he.frameGrows

theorem Generator.wellFormed_of_generate {g : Generator} {p : Program}
    (h : empty.generate p = (.ok (), g)) : g.frame.WellFormed := by
  obtain ⟨ts, hcode, _⟩ := generate_code h
  exact hcode.frameGrows.wellFormed Frame.wellFormed_empty

end Dam
