import Dam.Proofs.Slots
import Mathlib.Data.List.Basic
import Mathlib.Data.List.Induction

/-!
# Histories of the frame

The frame keeps the same facts three times over: in the table, in the list of names and
in the count of slots. Whatever is asked of it, and whether or not it can answer, the
three stay in step. This file looks at a frame together with all that was asked of it
since it was empty, and says what can be known of one from the other.

All that a call can do is set out in `Acts`. The invariant, `Valid`, is checked once for each
way in which it can change the frame; `after_consistent` reads the rest off it.
-/

namespace Dam.Frame

/-! ## Calls -/

/-- What can be asked of a frame. -/
inductive Call where
  | define (name : String) (type : ValueType)
  | assign (name : String) (type : ValueType)
  | useScanner
  | type (name : String)
  | slot (name : String)
deriving DecidableEq, Repr

/-- What is answered to a call that does not fail. -/
inductive Answer where
  | slot (slot : Nat)
  | type (type : ValueType)
deriving DecidableEq, Repr

/-- The answer to a call, unless it fails, and the frame after it. -/
def Call.run (f : Frame) : Call → Option Answer × Frame
  | define x τ => ((f.define x τ).1.map .slot, (f.define x τ).2)
  | assign x τ => ((f.assign x τ).1.map .slot, (f.assign x τ).2)
  | useScanner => (f.useScanner.1.map .slot, f.useScanner.2)
  | type x => ((f.type? x).map .type, f)
  | slot x => ((f.slot? x).map .slot, f)

/-- The frame after some calls. -/
def after (f : Frame) (calls : List Call) : Frame := calls.foldl (fun f c => (c.run f).2) f

/-- The calls, each with its answer. -/
def history (f : Frame) : List Call → List (Call × Option Answer)
  | [] => []
  | c :: cs => (c, (c.run f).1) :: (c.run f).2.history cs

/-- The name that a call has declared, if it was a declaration and did not fail. -/
def declaredBy : Call × Option Answer → Option String
  | (.define x _, some _) => some x
  | _ => none

/-- The slots of the variables, in the order of declaration. -/
def slots (f : Frame) : List Nat := f.toList.map fun r => r.2.slot

@[simp] theorem after_nil (f : Frame) : f.after [] = f := rfl

@[simp] theorem after_append (f : Frame) (calls more : List Call) :
    f.after (calls ++ more) = (f.after calls).after more :=
  List.foldl_append

theorem history_append (f : Frame) (calls more : List Call) :
    f.history (calls ++ more) = f.history calls ++ (f.after calls).history more := by
  induction calls generalizing f with
  | nil => rfl
  | cons c cs ih => simp only [List.cons_append, history, ih, after, List.foldl_cons]

/-! ## What a call does -/

/-- `Acts f c a f'`: on the frame `f`, the call `c` is answered by `a` and leaves `f'`. -/
inductive Acts (f : Frame) : Call → Option Answer → Frame → Prop
  | redeclare {x : String} {τ : ValueType} {v : Variable} :
      f.table[x]? = some v →
      Acts f (.define x τ) (some (.slot v.slot)) { f with table := f.table.insert x ⟨τ, v.slot⟩ }
  | declare {x : String} {τ : ValueType} {k : Nat} :
      f.table[x]? = none → f.nextSlot? = some k →
      Acts f (.define x τ) (some (.slot k)) { f with
        table := f.table.insert x ⟨τ, k⟩
        declared := x :: f.declared
        allocated := f.allocated + 1 }
  | noRoom {x : String} {τ : ValueType} :
      f.table[x]? = none → f.nextSlot? = none → Acts f (.define x τ) none f
  | assign {x : String} {τ : ValueType} {v : Variable} :
      f.table[x]? = some v →
      Acts f (.assign x τ) (some (.slot v.slot)) { f with table := f.table.insert x ⟨τ, v.slot⟩ }
  | unknown {x : String} {τ : ValueType} : f.table[x]? = none → Acts f (.assign x τ) none f
  | openScanner {k : Nat} :
      f.scanner = none → f.nextSlot? = some k →
      Acts f .useScanner (some (.slot k))
        { f with allocated := f.allocated + 1, scanner := some k }
  | hasScanner {k : Nat} : f.scanner = some k → Acts f .useScanner (some (.slot k)) f
  | noScanner : f.scanner = none → f.nextSlot? = none → Acts f .useScanner none f
  | type {x : String} : Acts f (.type x) ((f.type? x).map .type) f
  | slot {x : String} : Acts f (.slot x) ((f.slot? x).map .slot) f

theorem acts_run (f : Frame) (c : Call) : f.Acts c (c.run f).1 (c.run f).2 := by
  cases c with
  | define x τ =>
      dsimp only [Call.run]
      unfold define
      split
      · exact .redeclare ‹_›
      · split
        · exact .noRoom ‹_› ‹_›
        · exact .declare ‹_› ‹_›
  | assign x τ =>
      dsimp only [Call.run]
      unfold assign
      split
      · exact .unknown ‹_›
      · exact .assign ‹_›
  | useScanner =>
      dsimp only [Call.run]
      unfold useScanner
      split
      · exact .hasScanner ‹_›
      · split
        · exact .noScanner ‹_› ‹_›
        · exact .openScanner ‹_› ‹_›
  | type x => exact .type
  | slot x => exact .slot

/-! ## The invariant -/

/-- Table, list of names and count of slots are in step. -/
structure Valid (f : Frame) : Prop where
  /-- The names in the list are those in the table. -/
  listed : ∀ x, x ∈ f.declared ↔ ∃ v, f.table[x]? = some v
  /-- No name is in the list twice. -/
  nodup : f.declared.Nodup
  /-- A variable has a higher slot than those declared before it. -/
  increasing : f.slots.Pairwise (· < ·)
  /-- Every slot given out has one owner. -/
  owned : (f.slots ++ f.scanner.toList).Perm (List.range' reserved f.allocated)
  /-- There is room for all slots in the frame. -/
  bounded : f.locals ≤ limit

variable {f f' : Frame} {x : String} {τ : ValueType} {k : Nat}

theorem slots_eq (f : Frame) : f.slots = f.declared.reverse.filterMap f.slot? := by
  unfold slots toList slot?
  rw [List.map_filterMap]
  congr 1
  funext x
  cases f.table[x]? <;> rfl

theorem exists_slot? : (∃ k, f.slot? x = some k) ↔ ∃ v, f.table[x]? = some v := by
  unfold slot?
  simp only [Option.map_eq_some_iff]
  constructor
  · rintro ⟨_, v, hv, _⟩; exact ⟨v, hv⟩
  · rintro ⟨v, hv⟩; exact ⟨v.slot, v, hv, rfl⟩

theorem slot?_eq_none : f.slot? x = none ↔ f.table[x]? = none := by
  unfold slot?
  exact Option.map_eq_none_iff

namespace Valid

theorem mem_toList (hf : f.Valid) {v : Variable} :
    (x, v) ∈ f.toList ↔ f.table[x]? = some v := by
  unfold toList
  simp only [List.mem_filterMap, List.mem_reverse, Option.map_eq_some_iff, Prod.mk.injEq]
  constructor
  · rintro ⟨y, _, w, hw, rfl, rfl⟩; exact hw
  · intro hv; exact ⟨x, (hf.listed x).mpr ⟨v, hv⟩, v, hv, rfl, rfl⟩

/-- No name in the list is left out for want of an entry. -/
theorem names_toList (hf : f.Valid) : f.toList.map Prod.fst = f.declared.reverse := by
  have hall : ∀ x ∈ f.declared.reverse,
      (f.table[x]?.map fun v => (x, v)).map Prod.fst = some x := by
    intro x hx
    obtain ⟨v, hv⟩ := (hf.listed x).mp (List.mem_reverse.mp hx)
    rw [hv]
    rfl
  unfold toList
  rw [List.map_filterMap, List.filterMap_congr hall, List.filterMap_some]

theorem length_toList (hf : f.Valid) : f.toList.length = f.size := by
  have := congrArg List.length hf.names_toList
  simpa [size] using this

theorem slot_lt (hf : f.Valid) (hk : k ∈ f.slots) : k < f.locals := by
  have hmem := hf.owned.mem_iff.mp (List.mem_append_left _ hk)
  rw [List.mem_range'_1] at hmem
  exact hmem.2

/-- As many slots are given out as there are owners. -/
theorem allocated_eq (hf : f.Valid) : f.allocated = f.size + f.scanner.toList.length := by
  have hlength := hf.owned.length_eq
  rw [List.length_append, List.length_range', slots, List.length_map, hf.length_toList] at hlength
  exact hlength.symm

theorem locals_eq (hf : f.Valid) :
    f.locals = 1 + f.size + if f.scanner.isSome then 1 else 0 := by
  rw [locals, reserved, hf.allocated_eq, Nat.add_assoc]
  cases f.scanner <;> rfl

end Valid

theorem valid_empty : Valid empty where
  listed := by intro x; simp [empty]
  nodup := List.nodup_nil
  increasing := List.Pairwise.nil
  owned := List.Perm.refl _
  bounded := by decide

theorem nextSlot?_eq : f.nextSlot? = if f.locals = limit then none else some f.locals := rfl

/-- Where there is a slot to give, there is room for one more. -/
theorem Valid.room (hf : f.Valid) (hk : f.nextSlot? = some k) : f.locals < limit := by
  refine Nat.lt_of_le_of_ne hf.bounded fun hfull => ?_
  rw [nextSlot?_eq, if_pos hfull] at hk
  cases hk

theorem exists_table_insert (t : Std.TreeMap String Variable) (v : Variable) (y : String) :
    (∃ w, (t.insert x v)[y]? = some w) ↔ y = x ∨ ∃ w, t[y]? = some w := by
  rw [Std.TreeMap.getElem?_insert]
  by_cases h : x = y
  · subst h; simp
  · simp [h, Ne.symm h, Std.LawfulEqCmp.compare_eq_iff_eq]

theorem Valid.retype (hf : f.Valid) {v : Variable} (hv : f.table[x]? = some v) :
    Valid { f with table := f.table.insert x ⟨τ, v.slot⟩ } := by
  have hslots : slots { f with table := f.table.insert x ⟨τ, v.slot⟩ } = f.slots := by
    rw [slots_eq, slots_eq, slot?_retype hv]
  refine ⟨fun y => ?_, hf.nodup, hslots ▸ hf.increasing, hslots ▸ hf.owned, hf.bounded⟩
  rw [exists_table_insert, hf.listed y]
  constructor
  · exact .inr
  · rintro (rfl | h)
    · exact ⟨v, hv⟩
    · exact h

theorem Valid.declare (hf : f.Valid) (hx : f.table[x]? = none) (hk : f.nextSlot? = some k) :
    Valid { f with
      table := f.table.insert x ⟨τ, k⟩
      declared := x :: f.declared
      allocated := f.allocated + 1 } := by
  have hnew : x ∉ f.declared := by
    intro hmem
    obtain ⟨v, hv⟩ := (hf.listed x).mp hmem
    rw [hx] at hv; cases hv
  have hnext := nextSlot?_eq_some hk
  -- the names that were there keep their slots, so the new slot comes behind the old ones
  have hslots : slots { f with
      table := f.table.insert x ⟨τ, k⟩
      declared := x :: f.declared
      allocated := f.allocated + 1 } = f.slots ++ [k] := by
    rw [slots_eq, slots_eq, List.reverse_cons, List.filterMap_append]
    congr 1
    · refine List.filterMap_congr fun y hy => ?_
      have hne : x ≠ y := by rintro rfl; exact hnew (List.mem_reverse.mp hy)
      exact (slot?_insert f.table ⟨τ, k⟩ y).trans (if_neg hne)
    · have hself := (slot?_insert f.table ⟨τ, k⟩ x).trans (if_pos rfl)
      exact List.filterMap_cons_some hself
  refine ⟨fun y => ?_, List.nodup_cons.mpr ⟨hnew, hf.nodup⟩, ?_, ?_, ?_⟩
  · rw [exists_table_insert, List.mem_cons, hf.listed y]
  · rw [hslots, List.pairwise_append]
    refine ⟨hf.increasing, List.pairwise_singleton _ _, fun j hj i hi => ?_⟩
    rw [List.mem_singleton.mp hi, hnext]
    exact hf.slot_lt hj
  · rw [hslots, List.range'_1_concat, List.append_assoc]
    refine (List.perm_append_comm.append_left f.slots).trans ?_
    rw [← List.append_assoc, hnext]
    exact hf.owned.append_right _
  · exact hf.room hk

theorem Valid.openScanner (hf : f.Valid) (hs : f.scanner = none) (hk : f.nextSlot? = some k) :
    Valid { f with allocated := f.allocated + 1, scanner := some k } := by
  have hnext := nextSlot?_eq_some hk
  refine ⟨hf.listed, hf.nodup, hf.increasing, ?_, ?_⟩
  · have howned := hf.owned
    rw [hs, Option.toList_none, List.append_nil] at howned
    rw [List.range'_1_concat, hnext]
    exact howned.append_right _
  · exact hf.room hk

namespace Acts

variable {c : Call} {a : Option Answer}

/-- **No call breaks the invariant.** -/
theorem valid (h : f.Acts c a f') (hf : f.Valid) : f'.Valid := by
  cases h with
  | redeclare hv | assign hv => exact hf.retype hv
  | declare hx hk => exact hf.declare hx hk
  | openScanner hs hk => exact hf.openScanner hs hk
  | noRoom | unknown | hasScanner | noScanner | type | slot => exact hf

theorem keeps (h : f.Acts c a f') : f.Keeps f' := by
  cases h with
  | redeclare hv | assign hv => exact (stores_retype hv).keeps
  | declare hx hk => exact (stores_new hx hk).keeps
  | openScanner hs hk => exact ⟨fun _ _ h => h, fun j h => by rw [hs] at h; cases h⟩
  | noRoom | unknown | hasScanner | noScanner | type | slot => exact .refl f

/-- A call that fails leaves the frame as it was. -/
theorem eq_of_none (h : f.Acts c none f') : f' = f := by
  generalize ha : (none : Option Answer) = a at h
  cases h with
  | redeclare | declare | assign | openScanner => cases ha
  | noRoom | unknown | hasScanner | noScanner | type | slot => rfl

/-- A variable has a slot after a call if it had it before, or if the call has declared it there. -/
theorem slot_iff (h : f.Acts c a f') :
    f'.slot? x = some k ↔ f.slot? x = some k ∨ ∃ τ, c = .define x τ ∧ a = some (.slot k) := by
  constructor
  · intro hx
    cases h with
    | redeclare hv | assign hv =>
        rw [slot?_retype hv] at hx
        exact .inl hx
    | @declare y σ j hy hj =>
        have hslot := (slot?_insert f.table ⟨σ, j⟩ x).symm.trans hx
        by_cases hyx : y = x
        · subst hyx
          rw [if_pos rfl] at hslot
          cases hslot
          exact .inr ⟨σ, rfl, rfl⟩
        · rw [if_neg hyx] at hslot
          exact .inl hslot
    | noRoom | unknown | openScanner | hasScanner | noScanner | type | slot => exact .inl hx
  · rintro (hx | ⟨τ, rfl, rfl⟩)
    · exact h.keeps.slot x k hx
    · cases h with
      | redeclare hv => exact (stores_retype hv).slot
      | declare hx hk => exact (stores_new hx hk).slot

/-- The scanner has a slot after a call if it had it before, or if the call has asked for it. -/
theorem scanner_iff (h : f.Acts c a f') :
    f'.scanner = some k ↔ f.scanner = some k ∨ c = .useScanner ∧ a = some (.slot k) := by
  constructor
  · intro hk
    cases h with
    | openScanner hs hj => cases hk; exact .inr ⟨rfl, rfl⟩
    | redeclare | declare | noRoom | assign | unknown | hasScanner | noScanner | type | slot =>
        exact .inl hk
  · rintro (hk | ⟨rfl, rfl⟩)
    · exact h.keeps.scanner k hk
    · cases h with
      | openScanner hs hk => rfl
      | hasScanner hk => exact hk

/-- A name comes into the list when it is declared for the first time. -/
theorem declared (h : f.Acts c a f') (hf : f.Valid) :
    f'.declared.reverse = f.declared.reverse ++
      ((declaredBy (c, a)).toList.filter (· ∉ f.declared)) := by
  cases h with
  | @redeclare y σ v hv =>
      have hmem : y ∈ f.declared := (hf.listed y).mpr ⟨v, hv⟩
      simp [declaredBy, hmem]
  | @declare y σ j hy hj =>
      have hmem : y ∉ f.declared := by
        rw [hf.listed y, hy]
        simp
      simp [declaredBy, hmem]
  | noRoom | assign | unknown | openScanner | hasScanner | noScanner | type | slot =>
      simp [declaredBy]

end Acts

theorem valid_after (calls : List Call) : (empty.after calls).Valid := by
  induction calls using List.reverseRecOn with
  | nil => exact valid_empty
  | append_singleton calls c ih => rw [after_append]; exact (acts_run _ c).valid ih

theorem keeps_after (f : Frame) (calls : List Call) : f.Keeps (f.after calls) := by
  induction calls generalizing f with
  | nil => exact .refl f
  | cons c cs ih => exact (acts_run f c).keeps.trans (ih (c.run f).2)

/-! ## What the history tells -/

/-- The names that calls have declared, as often as they were declared. -/
def declaredIn (h : List (Call × Option Answer)) : List String := h.filterMap declaredBy

theorem history_snoc (calls : List Call) (c : Call) :
    empty.history (calls ++ [c]) =
      empty.history calls ++ [(c, (c.run (empty.after calls)).1)] :=
  history_append empty calls [c]

theorem after_snoc (calls : List Call) (c : Call) :
    empty.after (calls ++ [c]) = (c.run (empty.after calls)).2 :=
  after_append empty calls [c]

theorem declared_after (calls : List Call) :
    (empty.after calls).declared.reverse = (declaredIn (empty.history calls)).eraseDups := by
  induction calls using List.reverseRecOn with
  | nil => rfl
  | append_singleton calls c ih =>
      have hmem : ∀ x, x ∈ (empty.after calls).declared ↔
          x ∈ declaredIn (empty.history calls) := by
        intro x
        rw [← List.mem_reverse, ih, List.mem_eraseDups]
      rw [history_snoc, after_snoc, (acts_run _ c).declared (valid_after calls), ih]
      unfold declaredIn at hmem ⊢
      rw [List.filterMap_append, List.eraseDups_append]
      congr 1
      cases hd : declaredBy (c, (c.run (empty.after calls)).1) with
      | none => simp [hd]
      | some y =>
          by_cases hy : y ∈ (empty.after calls).declared
          · simp [hd, hy, List.removeAll, (hmem y).mp hy]
          · simp [hd, hy, List.removeAll, mt (hmem y).mpr hy, List.eraseDups_cons]

theorem slot?_after (calls : List Call) (x : String) (k : Nat) :
    (empty.after calls).slot? x = some k ↔
      ∃ τ, (.define x τ, some (.slot k)) ∈ empty.history calls := by
  induction calls using List.reverseRecOn with
  | nil => simp [slot?, empty, history]
  | append_singleton calls c ih =>
      rw [history_snoc, after_snoc, (acts_run _ c).slot_iff, ih]
      simp only [List.mem_append, List.mem_singleton, Prod.mk.injEq, exists_or]
      refine or_congr_right (exists_congr fun τ => ?_)
      exact and_congr eq_comm eq_comm

theorem scanner_after (calls : List Call) (k : Nat) :
    (empty.after calls).scanner = some k ↔
      (.useScanner, some (.slot k)) ∈ empty.history calls := by
  induction calls using List.reverseRecOn with
  | nil => simp [empty, history]
  | append_singleton calls c ih =>
      rw [history_snoc, after_snoc, (acts_run _ c).scanner_iff, ih]
      simp only [List.mem_append, List.mem_singleton, Prod.mk.injEq]
      exact or_congr_right (and_congr eq_comm eq_comm)

/-! ## Calls that fail -/

theorem nextSlot?_eq_none : f.nextSlot? = none ↔ f.allocated = 65534 := by
  rw [nextSlot?_eq]
  unfold locals reserved limit
  by_cases h : 1 + f.allocated = 65535
  · rw [if_pos h]
    exact iff_of_true rfl (by omega)
  · rw [if_neg h]
    exact iff_of_false (by simp) (by omega)

theorem define_eq_none : (f.define x τ).1 = none ↔ f.table[x]? = none ∧ f.nextSlot? = none := by
  unfold define
  cases f.table[x]? with
  | some v => simp
  | none => cases f.nextSlot? <;> simp

theorem assign_eq_none : (f.assign x τ).1 = none ↔ f.table[x]? = none := by
  unfold assign
  cases f.table[x]? <;> simp

theorem useScanner_eq_none : f.useScanner.1 = none ↔ f.scanner = none ∧ f.nextSlot? = none := by
  unfold useScanner
  cases f.scanner with
  | some k => simp
  | none => cases f.nextSlot? <;> simp

/-! ## All together -/

/-- What is known of a frame with the history `h`. -/
structure Consistent (h : List (Call × Option Answer)) (f : Frame) : Prop where
  /-- The slots from 1 on that were given out have one owner each: a variable or the scanner. -/
  owned : (f.slots ++ f.scanner.toList).Perm (List.range' 1 f.allocated)
  /-- The listing has every variable, in the order of its first declaration. -/
  entries : ∀ x v, (x, v) ∈ f.toList ↔ f.table[x]? = some v
  order : f.toList.map Prod.fst = (declaredIn h).eraseDups
  increasing : f.slots.Pairwise (· < ·)
  size : f.size = f.toList.length
  locals : f.locals = 1 + f.size + if f.scanner.isSome then 1 else 0
  /-- All counts fit in 16 bits: counting in words of that size is no different. -/
  bounded : f.locals ≤ 65535
  words : (UInt16.ofNat reserved + UInt16.ofNat f.allocated).toNat = f.locals
  /-- A slot is what was answered when it was asked for, and no call to come changes it. -/
  slot : ∀ x k, f.slot? x = some k ↔ ∃ τ, (.define x τ, some (.slot k)) ∈ h
  scanner : ∀ k, f.scanner = some k ↔ (.useScanner, some (.slot k)) ∈ h
  keeps : ∀ calls, f.Keeps (f.after calls)
  /-- A new slot is refused when 65534 of them are given out, an old one never. -/
  define_fails : ∀ x τ, (f.define x τ).1 = none ↔ x ∉ declaredIn h ∧ f.allocated = 65534
  useScanner_fails : f.useScanner.1 = none ↔ f.scanner = none ∧ f.allocated = 65534
  /-- All else fails on names that were never declared. -/
  assign_fails : ∀ x τ, (f.assign x τ).1 = none ↔ x ∉ declaredIn h
  type_fails : ∀ x, f.type? x = none ↔ x ∉ declaredIn h
  slot_fails : ∀ x, f.slot? x = none ↔ x ∉ declaredIn h
  unchanged : ∀ c : Call, (c.run f).1 = none → (c.run f).2 = f

/-- **Whatever was asked of it, a frame is consistent.** -/
theorem after_consistent (calls : List Call) :
    Consistent (empty.history calls) (empty.after calls) := by
  have hvalid := valid_after calls
  have hunknown : ∀ x, (empty.after calls).table[x]? = none ↔
      x ∉ declaredIn (empty.history calls) := by
    intro x
    rw [← List.mem_eraseDups, ← declared_after, List.mem_reverse, hvalid.listed,
      Option.eq_none_iff_forall_ne_some, not_exists]
  have hbounded : (empty.after calls).locals ≤ 65535 := hvalid.bounded
  constructor
  case owned => exact hvalid.owned
  case entries => exact fun x v => hvalid.mem_toList
  case order => rw [hvalid.names_toList, declared_after]
  case increasing => exact hvalid.increasing
  case size => exact hvalid.length_toList.symm
  case locals => exact hvalid.locals_eq
  case bounded => exact hbounded
  case words =>
    unfold locals reserved at hbounded ⊢
    simp only [UInt16.toNat_add, UInt16.toNat_ofNat']
    omega
  case slot => exact slot?_after calls
  case scanner => exact scanner_after calls
  case keeps => exact keeps_after _
  case define_fails =>
    intro x τ
    rw [define_eq_none, hunknown, nextSlot?_eq_none]
  case useScanner_fails => rw [useScanner_eq_none, nextSlot?_eq_none]
  case assign_fails =>
    intro x τ
    rw [assign_eq_none, hunknown]
  case type_fails =>
    intro x
    rw [type?, Option.map_eq_none_iff, hunknown]
  case slot_fails =>
    intro x
    rw [slot?_eq_none, hunknown]
  case unchanged =>
    intro c hfail
    have hacts := acts_run (empty.after calls) c
    rw [hfail] at hacts
    exact hacts.eq_of_none

end Dam.Frame
