import Dam.Proofs.ControlFlow
import Dam.Proofs.Slots

/-!
# The last store before a load

The pass names in a load the type of the last store it has emitted for that variable. So
generated code, read from its start to its end, has in front of each load a store of that
type, and no other store into the slot in between. `Code.InOrder` carries this along,
with the types in the frame.

Whether control finds the same is another matter, since it does not follow the text.
-/

namespace Dam

namespace Code

/-! ## The last store -/

/-- The type of the last store into a slot, if there was one. -/
def lastStore (slot : Nat) (h : List Instr) : Option ValueType :=
  h.findSome? fun
    | .store τ k => if k = slot then some τ else none
    | _ => none

/-- On every path, every load finds that the last store into its slot was of its type. -/
def LoadsSafe (items : List Item) : Prop :=
  ∀ h i τ slot, Path items h i → items[i]? = some (.op (.load τ slot)) → lastStore slot h = some τ

theorem lastStore_store (slot k : Nat) (τ : ValueType) (h : List Instr) :
    lastStore slot (.store τ k :: h) = if k = slot then some τ else lastStore slot h := by
  unfold lastStore
  by_cases hk : k = slot
  · simp [hk]
  · simp [hk]

end Code

/-- Whether an instruction stores a value into a variable. -/
def Instr.isStore : Instr → Bool
  | store _ _ => true
  | _ => false

/-- Whether an instruction loads the value of a variable. -/
def Instr.isLoad : Instr → Bool
  | load _ _ => true
  | _ => false

theorem Code.lastStore_of_not_isStore {i : Instr} (hi : i.isStore = false) (slot : Nat)
    (h : List Instr) : lastStore slot (i :: h) = lastStore slot h := by
  cases i with
  | store τ k => cases hi
  | _ => rfl

theorem Literal.isStore_push {v : Literal} {i : Instr} {τ : ValueType}
    (h : v.push? = some (i, τ)) : i.isStore = false ∧ i.isLoad = false := by
  cases v with
  | null => cases h
  | number x => cases h; exact ⟨rfl, rfl⟩
  | string s => cases h; exact ⟨rfl, rfl⟩
  | bool b => cases h; exact ⟨rfl, rfl⟩

theorem Gen.isStore_arithInstr {op : ArithOp} {τ : ValueType} {i : Instr}
    (h : Gen.arithInstr? op τ = some i) : i.isStore = false ∧ i.isLoad = false := by
  rcases Gen.arithInstr?_cases h with ⟨_, rfl⟩ | ⟨_, rfl⟩ <;> exact ⟨rfl, rfl⟩

theorem Gen.isStore_floatCompare (k : Comparison) :
    (Gen.floatCompare k).isStore = false ∧ (Gen.floatCompare k).isLoad = false := by
  cases k <;> exact ⟨rfl, rfl⟩

/-- Instructions that neither touch a variable nor jump. -/
def Code.Inert (c : List Item) : Prop :=
  ∀ x ∈ c, ∃ i, x = .op i ∧ (i.isStore = false ∧ i.isLoad = false) ∧ i.target? = none

theorem Generator.inert_prologue (g : Generator) : Code.Inert g.prologue := by
  intro x hx
  unfold prologue at hx
  split at hx
  · simp only [Gen.openScanner, List.map_cons, List.map_nil, List.mem_cons, List.not_mem_nil,
      or_false] at hx
    rcases hx with rfl | rfl | rfl | rfl | rfl
    all_goals exact ⟨_, rfl, ⟨rfl, rfl⟩, rfl⟩
  · cases hx

/-! ## In the order of the text -/

namespace Code

/-- Reading items from start to end, with `h` in front of them, loads find their type. -/
def LoadsInOrder (h : List Instr) (items : List Item) : Prop :=
  ∀ i τ slot, items[i]? = some (.op (.load τ slot)) →
    lastStore slot ((instrs (items.take i)).reverse ++ h) = some τ

/-- The types in the frame `f` are those of the last stores. -/
def Current (F f : Frame) (h : List Instr) : Prop :=
  ∀ x k τ, F.slot? x = some k → f.type? x = some τ → lastStore k h = some τ

/-- Read in order, the code `c` turns the types of `f` into those of `f'`. -/
def InOrder (F f f' : Frame) (c : List Item) : Prop :=
  ∀ h, Current F f h → LoadsInOrder h c ∧ Current F f' ((instrs c).reverse ++ h)

namespace InOrder

variable {F f f₁ f₂ : Frame} {c c₁ c₂ : List Item}

theorem append (h₁ : InOrder F f f₁ c₁) (h₂ : InOrder F f₁ f₂ c₂) : InOrder F f f₂ (c₁ ++ c₂) := by
  intro h hcur
  obtain ⟨hl₁, hc₁⟩ := h₁ h hcur
  obtain ⟨hl₂, hc₂⟩ := h₂ _ hc₁
  have hinstrs : ∀ a b : List Item, instrs (a ++ b) = instrs a ++ instrs b :=
    fun a b => List.filterMap_append
  refine ⟨fun i τ slot hi => ?_, ?_⟩
  · by_cases hlt : i < c₁.length
    · rw [List.getElem?_append_left hlt] at hi
      rw [List.take_append_of_le_length (Nat.le_of_lt hlt)]
      exact hl₁ i τ slot hi
    · rw [List.getElem?_append_right (by omega)] at hi
      rw [List.take_append, List.take_of_length_le (by omega), hinstrs, List.reverse_append,
        List.append_assoc]
      exact hl₂ _ τ slot hi
  · rw [hinstrs, List.reverse_append, List.append_assoc]
    exact hc₂

theorem nil (f : Frame) : InOrder F f f [] := by
  intro h hcur
  exact ⟨fun i τ slot hi => by simp at hi, hcur⟩

theorem label (l : Label) (f : Frame) : InOrder F f f [.label l] := by
  intro h hcur
  refine ⟨fun i τ slot hi => ?_, hcur⟩
  cases i with
  | zero => cases hi
  | succ i => simp at hi

theorem pass {n : Instr} (hn : n.isStore = false ∧ n.isLoad = false) (f : Frame) :
    InOrder F f f [.op n] := by
  intro h hcur
  refine ⟨fun i τ slot hi => ?_, fun x k τ hk hτ => ?_⟩
  · cases i with
    | zero =>
        have heq : n = .load τ slot := Item.op.inj (Option.some.inj hi)
        rw [heq] at hn
        cases hn.2
    | succ i => simp at hi
  · show lastStore k (n :: h) = some τ
    rw [lastStore_of_not_isStore hn.1]
    exact hcur x k τ hk hτ

theorem load {x : String} {v : Variable} (hx : f.table[x]? = some v) (hkeeps : f.Keeps F) :
    InOrder F f f [.op (.load v.type v.slot)] := by
  obtain ⟨htype, hslot⟩ := Frame.table_eq_some.mp hx
  intro h hcur
  refine ⟨fun i τ slot hi => ?_, fun y k τ hk hτ => ?_⟩
  · cases i with
    | zero =>
        cases hi
        exact hcur x _ _ (hkeeps.slot x _ hslot) htype
    | succ i => simp at hi
  · show lastStore k (_ :: h) = some τ
    rw [lastStore_of_not_isStore rfl]
    exact hcur y k τ hk hτ

theorem store {x : String} {τ : ValueType} {k : Nat} (hF : F.WellFormed)
    (hst : f.Stores x τ k f₁) (hkeeps : f₁.Keeps F) : InOrder F f f₁ [.op (.store τ k)] := by
  have hx : F.slot? x = some k := hkeeps.slot x k hst.slot
  intro h hcur
  refine ⟨fun i τ slot hi => ?_, fun y j τ' hj hτ' => ?_⟩
  · cases i with
    | zero => cases hi
    | succ i => simp at hi
  · show lastStore j (.store τ k :: h) = some τ'
    rw [lastStore_store]
    rw [hst.type] at hτ'
    -- another variable has another slot, in which the store changes nothing
    by_cases hyx : y = x
    · subst hyx
      rw [Function.update_self] at hτ'
      rw [if_pos (Option.some.inj (hx.symm.trans hj))]
      exact hτ'
    · rw [Function.update_of_ne hyx] at hτ'
      have hne : k ≠ j := by
        rintro rfl
        exact hyx (hF.inj y x k hj hx)
      rw [if_neg hne]
      exact hcur y j τ' hj hτ'

theorem inert (hc : Inert c) (f : Frame) : InOrder F f f c := by
  induction c with
  | nil => exact nil f
  | cons x c ih =>
      obtain ⟨i, rfl, hi, _⟩ := hc x List.mem_cons_self
      exact (pass hi f).append (ih fun y hy => hc y (List.mem_cons_of_mem _ hy))

theorem turn (a b : Label) (f : Frame) : InOrder F f f [.op (.goto a), .label b] :=
  (pass (n := .goto a) ⟨rfl, rfl⟩ f).append (label b f)

theorem branch (k : Comparison) (t : Label) (τ : ValueType) (f : Frame) :
    InOrder F f f (k.branch t τ) := by
  cases τ with
  | numeric =>
      exact (pass (Gen.isStore_floatCompare k) f).append (pass (n := .ifZero _ t) ⟨rfl, rfl⟩ f)
  | string =>
      exact (pass (n := .invokeVirtual Gen.compareTo) ⟨rfl, rfl⟩ f).append
        (pass (n := .ifZero _ t) ⟨rfl, rfl⟩ f)
  | bool => exact pass (n := .ifInts _ t) ⟨rfl, rfl⟩ f

theorem materialize (n : Nat) (f : Frame) : InOrder F f f (materializeCode n) :=
  (pass (n := .iconst 1) ⟨rfl, rfl⟩ f).append ((turn _ _ f).append
    ((pass (n := .iconst 0) ⟨rfl, rfl⟩ f).append (label _ f)))

end InOrder

end Code

section

variable {F : Frame}

theorem ExprCode.inOrder {e : Expr} {pos : ExprPosition} {s s' : Scope}
    {ts : List (Nat × ValueType)} {c : List Item} (h : ExprCode e pos s s' ts c)
    (hF : F.WellFormed) (hkeeps : s'.frame.Keeps F) : Code.InOrder F s.frame s'.frame c := by
  induction h with
  | literal hv => exact .pass (Literal.isStore_push hv) _
  | var hx => exact .load hx hkeeps
  | not _ ih =>
      exact (ih hkeeps).append ((Code.InOrder.pass (n := .iconst 1) ⟨rfl, rfl⟩ _).append
        (.pass (n := .ixor) ⟨rfl, rfl⟩ _))
  | neg _ ih => exact (ih hkeeps).append (.pass (n := .fneg) ⟨rfl, rfl⟩ _)
  | arith _ hr hi ih₁ ih₂ =>
      exact ((ih₁ (hr.frameGrows.keeps.trans hkeeps)).append (ih₂ hkeeps)).append
        (.pass (Gen.isStore_arithInstr hi) _)
  | materialize _ _ ih => exact (ih hkeeps).append (.materialize _ _)
  | grouping _ ih => exact ih hkeeps
  | assign _ hf ih =>
      have hst := Frame.stores_of_assign hf
      exact (ih (hst.keeps.trans hkeeps)).append
        ((Code.InOrder.pass (n := .dup) ⟨rfl, rfl⟩ _).append (.store hF hst hkeeps))
  | compare _ hr ih₁ ih₂ =>
      exact ((ih₁ (hr.frameGrows.keeps.trans hkeeps)).append (ih₂ hkeeps)).append (.branch _ _ _ _)
  | and _ hr ih₁ ih₂ => exact (ih₁ (hr.frameGrows.keeps.trans hkeeps)).append (ih₂ hkeeps)
  | or _ hr ih₁ ih₂ =>
      have hleft := ih₁ (hr.frameGrows.keeps.trans hkeeps)
      exact ((hleft.append (.turn _ _ _)).append (ih₂ hkeeps)).append (.label _ _)
  | groupingTest _ ih => exact ih hkeeps
  | branch _ _ ih => exact (ih hkeeps).append (.pass (n := .ifZero .eq _) ⟨rfl, rfl⟩ _)

theorem StmtCode.inOrder {st : Stmt} {s s' : Scope} {ts : List (Nat × ValueType)} {c : List Item}
    (h : StmtCode st s s' ts c) (hF : F.WellFormed) (hkeeps : s'.frame.Keeps F) :
    Code.InOrder F s.frame s'.frame c := by
  induction h with
  | declare he hf =>
      have hst := Frame.stores_of_define hf
      exact (he.inOrder hF (hst.keeps.trans hkeeps)).append (.store hF hst hkeeps)
  | print he =>
      exact ((Code.InOrder.pass (n := Gen.systemOut) ⟨rfl, rfl⟩ _).append
        (he.inOrder hF hkeeps)).append (.pass (n := .invokeVirtual _) ⟨rfl, rfl⟩ _)
  | @read sp x scanner slot s f f' hs hf =>
      have hopen := Frame.opens_of_useScanner hs
      have hst := Frame.stores_of_assign hf
      -- asking for the scanner changes no type
      have hload : Code.InOrder F s.frame f [.op (.loadRef scanner)] := by
        intro h hcur
        obtain ⟨hl, hc⟩ := Code.InOrder.pass (n := .loadRef scanner) ⟨rfl, rfl⟩ s.frame h hcur
        exact ⟨hl, fun y k τ hk hτ => hc y k τ hk (hopen.type ▸ hτ)⟩
      exact hload.append ((Code.InOrder.pass (n := .invokeVirtual Gen.nextLine) ⟨rfl, rfl⟩ f).append
        (.store hF hst hkeeps))
  | ifThen he hyes ih =>
      have htest := he.inOrder hF (hyes.frameGrows.keeps.trans hkeeps)
      exact ((htest.append (.label _ _)).append (ih hkeeps)).append (.label _ _)
  | ifElse he hyes hno ih₁ ih₂ =>
      have hkeeps₂ := hno.frameGrows.keeps.trans hkeeps
      have htest := he.inOrder hF (hyes.frameGrows.keeps.trans hkeeps₂)
      exact ((((htest.append (.label _ _)).append (ih₁ hkeeps₂)).append (.turn _ _ _)).append
        (ih₂ hkeeps)).append (.label _ _)
  | whileDo he hbody ih =>
      have htest := he.inOrder hF (hbody.frameGrows.keeps.trans hkeeps)
      exact (((Code.InOrder.label _ _).append htest).append (ih hkeeps)).append (.turn _ _ _)
  | nil => exact .nil _
  | cons _ h₂ ih₁ ih₂ => exact (ih₁ (h₂.frameGrows.keeps.trans hkeeps)).append (ih₂ hkeeps)
  | store he hf =>
      have hst := Frame.stores_of_assign hf
      exact (he.inOrder hF (hst.keeps.trans hkeeps)).append (.store hF hst hkeeps)
  | drop _ he => exact (he.inOrder hF hkeeps).append (.pass (n := .pop) ⟨rfl, rfl⟩ _)

end

namespace Generator

variable {g : Generator} {p : Program}

/-- In finished code, the last store in front of a load is of the type that the load names. -/
theorem finished_loadsInOrder (h : empty.generate p = (.ok (), g)) :
    Code.LoadsInOrder [] g.finishedItems := by
  obtain ⟨ts, hcode, _⟩ := generate_code h
  have hprologue : Code.InOrder g.frame .empty .empty g.prologue := .inert g.inert_prologue _
  have hitems := hcode.inOrder (wellFormed_of_generate h) (.refl _)
  have hstart : Code.Current g.frame .empty [] := by
    intro x k τ _ hτ
    simp [Frame.type?, Frame.empty] at hτ
  rw [finishedItems_eq]
  exact ((hprologue.append hitems) [] hstart).1

end Generator

end Dam
