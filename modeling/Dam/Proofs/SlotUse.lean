import Dam.Proofs.ControlFlow
import Dam.Proofs.FrameHistory
import Mathlib.Data.Finset.Card

/-!
# Slots in finished code

Every slot that finished code names belongs to someone: a variable that the program
declares, or the scanner. The pass gives slots out while it goes, the scanner's at the
first `read`, and the scanner is opened in front of all code when the pass is over; so
what is proved here holds of the frame at the end of the pass and of all items at once.

Seen from the frame, the pass is a row of calls (`Frame.Calls`), which declare the names
that the program declares. Seen from the code, each item is served by the frame behind
it (`Frame.Serves`), and frames to come serve it as well.
-/

namespace Dam

/-! ## What a program declares -/

namespace Stmt

mutual

/-- The statements in a statement that have no other in them, in the order of the text. -/
def simple : Stmt → List Stmt
  | declare s x e => [declare s x e]
  | print s e => [print s e]
  | read s x => [read s x]
  | expression s e => [expression s e]
  | ifThen _ _ yes => yes.simple
  | ifElse _ _ yes no => yes.simple ++ no.simple
  | whileDo _ _ body => body.simple
  | block _ ss => simpleAll ss

/-- The statements in statements that have no other in them. -/
def simpleAll : List Stmt → List Stmt
  | [] => []
  | st :: sts => st.simple ++ simpleAll sts

end

/-- The variable that a statement declares. -/
def declares? : Stmt → Option String
  | declare _ x _ => some x
  | _ => none

/-- Whether a statement reads a line. -/
def isRead : Stmt → Bool
  | read _ _ => true
  | _ => false

end Stmt

/-- The names that are declared anywhere in a program, as often as they are. -/
def Program.declared (p : Program) : List String :=
  (Stmt.simpleAll p.stmts).filterMap Stmt.declares?

/-- Whether a line is read anywhere in a program. -/
def Program.reads (p : Program) : Bool := (Stmt.simpleAll p.stmts).any Stmt.isRead

/-! ## The pass as calls on the frame -/

namespace Frame

/--
`f.Calls f' names scans`: calls that declare `names`, in this order, have turned `f` into
`f'`, and the scanner was asked for if `scans`.
-/
def Calls (f f' : Frame) (names : List String) (scans : Bool) : Prop :=
  ∃ calls, f.after calls = f' ∧ declaredIn (f.history calls) = names ∧
    (scans = true ↔ ∃ k, (.useScanner, some (.slot k)) ∈ f.history calls)

namespace Calls

variable {f f₁ f₂ : Frame} {names names' : List String} {scans scans' : Bool} {x : String}
  {τ : ValueType} {k : Nat}

theorem refl (f : Frame) : f.Calls f [] false := ⟨[], rfl, rfl, by simp [history]⟩

theorem trans (h : f.Calls f₁ names scans) (h' : f₁.Calls f₂ names' scans') :
    f.Calls f₂ (names ++ names') (scans || scans') := by
  obtain ⟨calls, rfl, rfl, hscans⟩ := h
  obtain ⟨more, rfl, rfl, hscans'⟩ := h'
  refine ⟨calls ++ more, after_append f calls more, ?_, ?_⟩
  · rw [history_append, declaredIn, List.filterMap_append]
    rfl
  · rw [Bool.or_eq_true, hscans, hscans', ← exists_or]
    simp only [history_append, List.mem_append]

theorem define (h : f.define x τ = (some k, f₁)) : f.Calls f₁ [x] false := by
  refine ⟨[.define x τ], congrArg Prod.snd h, ?_, by simp [history]⟩
  simp [history, Call.run, h, declaredIn, declaredBy]

theorem assign (h : f.assign x τ = (some k, f₁)) : f.Calls f₁ [] false :=
  ⟨[.assign x τ], congrArg Prod.snd h, rfl, by simp [history]⟩

theorem useScanner (h : f.useScanner = (some k, f₁)) : f.Calls f₁ [] true :=
  ⟨[.useScanner], congrArg Prod.snd h, rfl, by simp [history, Call.run, h]⟩

-- From the empty frame, the names and the scanner that were asked for are all there is.

variable (h : empty.Calls f names scans)
include h

theorem valid : f.Valid := by
  obtain ⟨calls, rfl, _⟩ := h
  exact valid_after calls

theorem mem_declared (x : String) : x ∈ f.declared ↔ x ∈ names := by
  obtain ⟨calls, rfl, rfl, _⟩ := h
  rw [← List.mem_reverse, declared_after, List.mem_eraseDups]

theorem size : f.size = names.toFinset.card := by
  have hsame : names.toFinset = f.declared.toFinset := by
    ext x
    rw [List.mem_toFinset, List.mem_toFinset, h.mem_declared x]
  rw [hsame, List.toFinset_card_of_nodup h.valid.nodup]
  rfl

theorem scanner : f.scanner.isSome = scans := by
  obtain ⟨calls, rfl, _, hscans⟩ := h
  rw [Bool.eq_iff_iff, hscans, Option.isSome_iff_exists]
  exact exists_congr (scanner_after calls)

end Calls

end Frame

theorem ExprCode.calls {e : Expr} {pos : ExprPosition} {s s' : Scope}
    {ts : List (Nat × ValueType)} {c : List Item} (h : ExprCode e pos s s' ts c) :
    s.frame.Calls s'.frame [] false := by
  induction h with
  | literal _ => exact .refl _
  | var _ => exact .refl _
  | not _ ih => exact ih
  | neg _ ih => exact ih
  | arith _ _ _ ih₁ ih₂ => exact ih₁.trans ih₂
  | materialize _ _ ih => exact ih
  | grouping _ ih => exact ih
  | assign _ hf ih => exact ih.trans (.assign hf)
  | compare _ _ ih₁ ih₂ => exact ih₁.trans ih₂
  | and _ _ ih₁ ih₂ => exact ih₁.trans ih₂
  | or _ _ ih₁ ih₂ => exact ih₁.trans ih₂
  | groupingTest _ ih => exact ih
  | branch _ _ ih => exact ih

theorem StmtCode.calls {st : Stmt} {s s' : Scope} {ts : List (Nat × ValueType)}
    {c : List Item} (h : StmtCode st s s' ts c) :
    s.frame.Calls s'.frame (st.simple.filterMap Stmt.declares?) (st.simple.any Stmt.isRead) := by
  induction h with
  | declare he hf => exact he.calls.trans (.define hf)
  | print he => exact he.calls
  | read hs hf => exact (Frame.Calls.useScanner hs).trans (.assign hf)
  | ifThen he _ ih =>
      rw [Stmt.simple]
      exact he.calls.trans ih
  | ifElse he _ _ ih₁ ih₂ =>
      rw [Stmt.simple, List.filterMap_append, List.any_append]
      exact (he.calls.trans ih₁).trans ih₂
  | whileDo he _ ih =>
      rw [Stmt.simple]
      exact he.calls.trans ih
  | nil => exact .refl _
  | cons _ _ ih₁ ih₂ =>
      rw [Stmt.simple] at ih₂ ⊢
      rw [Stmt.simpleAll, List.filterMap_append, List.any_append]
      exact ih₁.trans ih₂
  | store he hf => exact he.calls.trans (.assign hf)
  | drop _ he => exact he.calls

/-! ## The slots that items name -/

/-- The slot that an instruction names. -/
def Instr.slot? : Instr → Option Nat
  | load _ k | store _ k | loadRef k | storeRef k => some k
  | _ => none

/-- Whether an instruction stores an object. -/
def Instr.isStoreRef : Instr → Bool
  | storeRef _ => true
  | _ => false

namespace Frame

/-- The slot that an item names is one of the frame's; no item stores an object. -/
def Serves (f : Frame) : Item → Prop
  | .op (.load _ k) | .op (.store _ k) => ∃ x, f.slot? x = some k
  | .op (.loadRef k) => f.scanner = some k
  | .op (.storeRef _) => False
  | _ => True

variable {f f' : Frame}

theorem Serves.mono {x : Item} (h : f.Serves x) (hk : f.Keeps f') : f'.Serves x := by
  cases x with
  | label l => trivial
  | op i =>
      cases i with
      | load τ k | store τ k =>
          obtain ⟨y, hy⟩ := h
          exact ⟨y, hk.slot y k hy⟩
      | loadRef k => exact hk.scanner k h
      | storeRef k => exact h
      | _ => trivial

theorem serves_of_slot?_eq_none (f : Frame) {i : Instr} (h : i.slot? = none) :
    f.Serves (.op i) := by
  cases i with
  | load | store | loadRef | storeRef => cases h
  | _ => trivial

/-- All items of the code are served. -/
def ServesAll (f : Frame) (c : List Item) : Prop := ∀ x ∈ c, f.Serves x

@[simp] theorem servesAll_append (c c' : List Item) :
    f.ServesAll (c ++ c') ↔ f.ServesAll c ∧ f.ServesAll c' :=
  List.forall_mem_append

@[simp] theorem servesAll_cons (x : Item) (c : List Item) :
    f.ServesAll (x :: c) ↔ f.Serves x ∧ f.ServesAll c :=
  List.forall_mem_cons

@[simp] theorem servesAll_nil : f.ServesAll [] := by
  intro x hx; cases hx

theorem ServesAll.mono {c : List Item} (h : f.ServesAll c) (hk : f.Keeps f') : f'.ServesAll c :=
  fun x hx => (h x hx).mono hk

end Frame

theorem Literal.slot?_push {v : Literal} {i : Instr} {τ : ValueType}
    (h : v.push? = some (i, τ)) : i.slot? = none := by
  cases v with
  | null => cases h
  | number | string | bool => cases h; rfl

theorem Gen.slot?_arithInstr {op : ArithOp} {τ : ValueType} {i : Instr}
    (h : Gen.arithInstr? op τ = some i) : i.slot? = none := by
  rcases Gen.arithInstr?_cases h with ⟨_, rfl⟩ | ⟨_, rfl⟩ <;> rfl

theorem Comparison.servesAll_branch (k : Comparison) (t : Label) (τ : ValueType) (f : Frame) :
    f.ServesAll (k.branch t τ) := by
  cases τ with
  | numeric => cases k <;> simp [branch, Gen.floatCompare, Frame.Serves]
  | string | bool => simp [branch, Frame.Serves]

theorem ExprCode.serves {e : Expr} {pos : ExprPosition} {s s' : Scope}
    {ts : List (Nat × ValueType)} {c : List Item} (h : ExprCode e pos s s' ts c) :
    s'.frame.ServesAll c := by
  induction h with
  | literal hv => simpa using Frame.serves_of_slot?_eq_none _ (Literal.slot?_push hv)
  | @var n x v s hx =>
      rw [Frame.servesAll_cons]
      exact ⟨⟨x, (Frame.table_eq_some.mp hx).2⟩, Frame.servesAll_nil⟩
  | not _ ih => simpa [Frame.Serves] using ih
  | neg _ ih => simpa [Frame.Serves] using ih
  | arith _ hr hi ih₁ ih₂ =>
      simpa using ⟨ih₁.mono hr.frameGrows.keeps, ih₂,
        Frame.serves_of_slot?_eq_none _ (Gen.slot?_arithInstr hi)⟩
  | materialize _ _ ih => simpa [materializeCode, Frame.Serves] using ih
  | grouping _ ih => exact ih
  | @assign n x a τ slot s s₁ f ts c _ hf ih =>
      have hst := Frame.stores_of_assign hf
      simpa [Frame.Serves] using ⟨ih.mono hst.keeps, x, hst.slot⟩
  | compare _ hr ih₁ ih₂ =>
      simpa using ⟨ih₁.mono hr.frameGrows.keeps, ih₂, Comparison.servesAll_branch _ _ _ _⟩
  | and _ hr ih₁ ih₂ => simpa using ⟨ih₁.mono hr.frameGrows.keeps, ih₂⟩
  | or _ hr ih₁ ih₂ => simpa [Frame.Serves] using ⟨ih₁.mono hr.frameGrows.keeps, ih₂⟩
  | groupingTest _ ih => exact ih
  | branch _ _ ih => simpa [Frame.Serves] using ih

theorem StmtCode.serves {st : Stmt} {s s' : Scope} {ts : List (Nat × ValueType)}
    {c : List Item} (h : StmtCode st s s' ts c) : s'.frame.ServesAll c := by
  induction h with
  | @declare sp x e τ slot s s₁ f ts c he hf =>
      have hst := Frame.stores_of_define hf
      simpa [Frame.Serves] using ⟨he.serves.mono hst.keeps, x, hst.slot⟩
  | print he => simpa [Gen.systemOut, Frame.Serves] using he.serves
  | @read sp x scanner slot s f f' hs hf =>
      have ho := Frame.opens_of_useScanner hs
      have hst := Frame.stores_of_assign hf
      simpa [Frame.Serves] using ⟨hst.keeps.scanner _ ho.scanner, x, hst.slot⟩
  | ifThen he hyes ih =>
      simpa [Frame.Serves] using ⟨he.serves.mono hyes.frameGrows.keeps, ih⟩
  | ifElse he hyes hno ih₁ ih₂ =>
      have hkeeps := hyes.frameGrows.keeps.trans hno.frameGrows.keeps
      simpa [Frame.Serves] using ⟨he.serves.mono hkeeps, ih₁.mono hno.frameGrows.keeps, ih₂⟩
  | whileDo he hbody ih =>
      simpa [Frame.Serves] using ⟨he.serves.mono hbody.frameGrows.keeps, ih⟩
  | nil => exact Frame.servesAll_nil
  | cons _ hrest ih₁ ih₂ => simpa using ⟨ih₁.mono hrest.frameGrows.keeps, ih₂⟩
  | @store sp n x a τ slot s s₁ f ts c he hf =>
      have hst := Frame.stores_of_assign hf
      simpa [Frame.Serves] using ⟨he.serves.mono hst.keeps, x, hst.slot⟩
  | drop _ he => simpa [Frame.Serves] using he.serves

/-! ## Behind straight code -/

namespace Code

variable {pre : List Instr} {body : List Item} {x : Item} {h : List Instr} {i : Nat}

theorem getElem?_of_lt (hlt : i < pre.length) (hi : (pre.map Item.op ++ body)[i]? = some x) :
    ∃ k, x = .op k ∧ pre[i]? = some k := by
  rw [List.getElem?_append_left (by simpa using hlt), List.getElem?_map,
    Option.map_eq_some_iff] at hi
  obtain ⟨k, hk, rfl⟩ := hi
  exact ⟨k, rfl, hk⟩

theorem mem_of_le (hle : pre.length ≤ i) (hi : (pre.map Item.op ++ body)[i]? = some x) :
    x ∈ body := by
  rw [List.getElem?_append_right (by simpa using hle)] at hi
  exact List.mem_of_getElem? hi

theorem mem_instrs {k : Instr} : k ∈ instrs body ↔ .op k ∈ body := by
  unfold instrs
  rw [List.mem_filterMap]
  constructor
  · rintro ⟨x, hx, hk⟩
    cases x with
    | label l => cases hk
    | op i => cases hk; exact hx
  · intro hk; exact ⟨_, hk, rfl⟩

theorem instrs_map_op_append (pre : List Instr) (body : List Item) :
    instrs (pre.map Item.op ++ body) = pre ++ instrs body := by
  unfold instrs
  rw [List.filterMap_append, List.filterMap_map]
  congr 1
  exact List.filterMap_some

/--
A path through code that begins with instructions that do not jump is still among them,
or has executed all of them first, each once.
-/
theorem Path.through_straight (hpre : ∀ k ∈ pre, k.target? = none)
    (hp : Path (pre.map Item.op ++ body) h i) :
    (i < pre.length ∧ h = (pre.take i).reverse) ∨
      (pre.length ≤ i ∧ ∃ h', h = h' ++ pre.reverse ∧ ∀ k ∈ h', .op k ∈ body) := by
  -- a label stands behind the instructions in front
  have hlabel : ∀ j l, (pre.map Item.op ++ body)[j]? = some (.label l) → pre.length ≤ j := by
    intro j l hj
    by_contra hlt
    obtain ⟨k, hk, _⟩ := getElem?_of_lt (Nat.lt_of_not_le hlt) hj
    cases hk
  induction hp with
  | start =>
      cases pre with
      | nil => exact .inr ⟨Nat.le_refl _, [], rfl, by simp⟩
      | cons k pre => exact .inl ⟨by simp, rfl⟩
  | label _ hi ih =>
      have hle := hlabel _ _ hi
      rcases ih with ⟨hlt, _⟩ | ⟨_, hh⟩
      · omega
      · exact .inr ⟨by omega, hh⟩
  | @fall h i k _ hi _ ih =>
      rcases ih with ⟨hlt, rfl⟩ | ⟨hle, h', rfl, hbody⟩
      · obtain ⟨_, ⟨⟩, hk⟩ := getElem?_of_lt hlt hi
        have htake : (pre.take (i + 1)).reverse = k :: (pre.take i).reverse := by
          rw [List.take_add_one, hk, Option.toList_some, List.reverse_append]
          rfl
        by_cases hlast : i + 1 < pre.length
        · exact .inl ⟨hlast, htake.symm⟩
        · refine .inr ⟨by omega, [], ?_, by simp⟩
          rw [← htake, List.take_of_length_le (by omega), List.nil_append]
      · exact .inr ⟨by omega, k :: h', rfl, List.forall_mem_cons.mpr ⟨mem_of_le hle hi, hbody⟩⟩
  | @jump h i j k l _ hi hl hj ih =>
      rcases ih with ⟨hlt, _⟩ | ⟨hle, h', rfl, hbody⟩
      · obtain ⟨_, ⟨⟩, hk⟩ := getElem?_of_lt hlt hi
        rw [hpre k (List.mem_of_getElem? hk)] at hl
        cases hl
      · exact .inr ⟨hlabel j l hj, k :: h', rfl,
          List.forall_mem_cons.mpr ⟨mem_of_le hle hi, hbody⟩⟩

end Code

/-! ## In front of the code -/

namespace Gen

/-- The instructions in front of the code of a program: they open the scanner, if it has a slot. -/
def opening : Option Nat → List Instr
  | some k => openScanner k
  | none => []

variable {o : Option Nat} {i : Instr} {k : Nat}

theorem target?_opening (h : i ∈ opening o) : i.target? = none := by
  cases o with
  | none => cases h
  | some j =>
      simp only [opening, openScanner, List.mem_cons, List.not_mem_nil, or_false] at h
      rcases h with rfl | rfl | rfl | rfl | rfl <;> rfl

theorem eq_storeRef_of_opening (h : i ∈ opening o) (hk : i.slot? = some k) :
    i = .storeRef k ∧ o = some k := by
  cases o with
  | none => cases h
  | some j =>
      simp only [opening, openScanner, List.mem_cons, List.not_mem_nil, or_false] at h
      rcases h with rfl | rfl | rfl | rfl | rfl
      all_goals cases hk
      exact ⟨rfl, rfl⟩

theorem storeRef_mem_opening (k : Nat) : .storeRef k ∈ opening (some k) := by
  simp [opening, openScanner]

theorem countP_opening (o : Option Nat) :
    (opening o).countP Instr.isStoreRef = if o.isSome then 1 else 0 := by
  cases o <;> rfl

end Gen

theorem Generator.finishedItems_eq_opening (g : Generator) :
    g.finishedItems = (Gen.opening g.frame.scanner).map .op ++ g.items := by
  unfold finishedItems
  cases g.frame.scanner <;> rfl

/-! ## Finished code -/

namespace Generator

variable {p : Program} {g : Generator}

theorem calls_of_generate (h : empty.generate p = (.ok (), g)) :
    Frame.empty.Calls g.frame p.declared p.reads := by
  obtain ⟨ts, hcode, _⟩ := generate_code h
  have hcalls := hcode.calls
  rw [Stmt.simple] at hcalls
  exact hcalls

theorem serves_of_generate (h : empty.generate p = (.ok (), g)) : g.frame.ServesAll g.items := by
  obtain ⟨ts, hcode, _⟩ := generate_code h
  exact hcode.serves

theorem slot_of_generate (h : empty.generate p = (.ok (), g)) (x : String) :
    x ∈ p.declared ↔ ∃ k, g.frame.slot? x = some k := by
  have hcalls := calls_of_generate h
  rw [← hcalls.mem_declared x, hcalls.valid.listed x, Frame.exists_slot?]

/-- Labels, and uses of the scanner, stand behind the instructions that open it. -/
theorem opening_le {n : Nat} (hn : (∃ l, g.finishedItems[n]? = some (.label l)) ∨
    ∃ k, g.finishedItems[n]? = some (.op (.loadRef k))) :
    (Gen.opening g.frame.scanner).length ≤ n := by
  by_contra hlt
  rw [finishedItems_eq_opening] at hn
  rcases hn with ⟨l, hl⟩ | ⟨k, hk⟩
  · obtain ⟨_, ⟨⟩, _⟩ := Code.getElem?_of_lt (Nat.lt_of_not_le hlt) hl
  · obtain ⟨_, ⟨⟩, hi⟩ := Code.getElem?_of_lt (Nat.lt_of_not_le hlt) hk
    obtain ⟨⟨⟩, _⟩ := Gen.eq_storeRef_of_opening (List.mem_of_getElem? hi) rfl

section

variable (hg : empty.generate p = (.ok (), g)) {i : Instr} {k : Nat}
include hg

/-- An instruction with a slot opens the scanner, or the frame serves it. -/
theorem opens_or_serves (hi : .op i ∈ g.finishedItems) (hk : i.slot? = some k) :
    (i = .storeRef k ∧ g.frame.scanner = some k) ∨ g.frame.Serves (.op i) := by
  rw [finishedItems_eq_opening, List.mem_append, List.mem_map] at hi
  rcases hi with ⟨j, hj, ⟨⟩⟩ | hi
  · exact .inl (Gen.eq_storeRef_of_opening hj hk)
  · exact .inr (serves_of_generate hg _ hi)

theorem owner_of_load_or_store {τ : ValueType}
    (hi : .op (.load τ k) ∈ g.finishedItems ∨ .op (.store τ k) ∈ g.finishedItems) :
    ∃ x, g.frame.slot? x = some k := by
  rcases hi with hi | hi
  all_goals
    rcases opens_or_serves hg hi rfl with ⟨⟨⟩, _⟩ | hx
    exact hx

theorem scanner_of_loadRef (hi : .op (.loadRef k) ∈ g.finishedItems) :
    g.frame.scanner = some k := by
  rcases opens_or_serves hg hi rfl with ⟨⟨⟩, _⟩ | hk
  exact hk

theorem slot_bounds (hi : .op i ∈ g.finishedItems) (hk : i.slot? = some k) :
    1 ≤ k ∧ k < g.frame.locals := by
  have howned := wellFormed_of_generate hg
  rcases opens_or_serves hg hi hk with ⟨_, hs⟩ | hs
  · exact howned.scanner_bound k hs
  · cases i with
    | load τ j | store τ j =>
        cases hk
        obtain ⟨x, hx⟩ := hs
        exact howned.bound x _ hx
    | loadRef j => cases hk; exact howned.scanner_bound _ hs
    | storeRef j => exact absurd hs id
    | _ => cases hk

/-- The code of the program itself stores no object. -/
theorem storeRef_not_mem (k : Nat) : Item.op (.storeRef k) ∉ g.items :=
  fun hk => serves_of_generate hg _ hk

theorem isStoreRef_of_mem (hi : .op i ∈ g.items) : i.isStoreRef = false := by
  cases i with
  | storeRef k => exact absurd hi (storeRef_not_mem hg k)
  | _ => rfl

theorem countP_storeRef :
    (Code.instrs g.finishedItems).countP Instr.isStoreRef = if p.reads then 1 else 0 := by
  have hbody : (Code.instrs g.items).countP Instr.isStoreRef = 0 := by
    rw [List.countP_eq_zero]
    intro i hi
    simp [isStoreRef_of_mem hg (Code.mem_instrs.mp hi)]
  rw [finishedItems_eq_opening, Code.instrs_map_op_append, List.countP_append, hbody,
    Gen.countP_opening, (calls_of_generate hg).scanner, Nat.add_zero]

theorem storeRef_lt {n m : Nat} (hn : g.finishedItems[n]? = some (.op (.storeRef k)))
    (hm : (∃ l, g.finishedItems[m]? = some (.label l)) ∨
      ∃ j, g.finishedItems[m]? = some (.op (.loadRef j))) : n < m := by
  have hle := opening_le hm
  have hlt : n < (Gen.opening g.frame.scanner).length := by
    by_contra hge
    rw [finishedItems_eq_opening] at hn
    exact storeRef_not_mem hg k (Code.mem_of_le (Nat.le_of_not_lt hge) hn)
  omega

theorem path_after_opening {h : List Instr} {n : Nat} (hp : Code.Path g.finishedItems h n)
    (hn : g.finishedItems[n]? = some (.op (.loadRef k))) : .storeRef k ∈ h := by
  have hle := opening_le (.inr ⟨k, hn⟩)
  have hopen := Gen.storeRef_mem_opening k
  rw [← scanner_of_loadRef hg (List.mem_of_getElem? hn)] at hopen
  rw [finishedItems_eq_opening] at hp
  rcases hp.through_straight fun _ => Gen.target?_opening with ⟨hlt, _⟩ | ⟨_, h', rfl, _⟩
  · omega
  · exact List.mem_append_right _ (List.mem_reverse.mpr hopen)

theorem path_opens_once {h : List Instr} {n : Nat} (hp : Code.Path g.finishedItems h n) :
    h.countP Instr.isStoreRef ≤ 1 := by
  have hone : (Gen.opening g.frame.scanner).countP Instr.isStoreRef ≤ 1 := by
    rw [Gen.countP_opening]
    split <;> omega
  rw [finishedItems_eq_opening] at hp
  rcases hp.through_straight fun _ => Gen.target?_opening with ⟨_, rfl⟩ | ⟨_, h', rfl, hbody⟩
  · rw [List.countP_reverse]
    exact Nat.le_trans (List.take_sublist _ _).countP_le hone
  · have hnone : h'.countP Instr.isStoreRef = 0 := by
      rw [List.countP_eq_zero]
      intro i hi
      simp [isStoreRef_of_mem hg (hbody i hi)]
    rw [List.countP_append, List.countP_reverse, hnone, Nat.zero_add]
    exact hone

end

end Generator

/-- How finished code of the program `p` uses slots, `f` being the frame behind the pass. -/
structure SlotDiscipline (p : Program) (f : Frame) (a : Assembly) : Prop where
  /-- There is a slot for the arguments, one for each name declared, and one for the scanner. -/
  maxLocals : a.maxLocals = 1 + p.declared.toFinset.card + if p.reads then 1 else 0
  bound : ∀ i k, .op i ∈ a.items → i.slot? = some k → 1 ≤ k ∧ k < a.maxLocals
  /-- The names declared, and no others, have slots, and no two of them the same. -/
  declared : ∀ x, x ∈ p.declared ↔ ∃ k, f.slot? x = some k
  apart : ∀ x y k, f.slot? x = some k → f.slot? y = some k → x = y
  owner : ∀ τ k, .op (.load τ k) ∈ a.items ∨ .op (.store τ k) ∈ a.items →
    ∃ x ∈ p.declared, f.slot? x = some k
  /-- Objects are loaded from the scanner's slot, which is no variable's. -/
  scanner : ∀ k, .op (.loadRef k) ∈ a.items → f.scanner = some k
  scanner_apart : ∀ τ k, f.scanner = some k →
    .op (.load τ k) ∉ a.items ∧ .op (.store τ k) ∉ a.items
  /-- If the program reads, the scanner is opened once, in front of all labels and uses of it. -/
  once : (Code.instrs a.items).countP Instr.isStoreRef = if p.reads then 1 else 0
  opened : ∀ i k : Nat, a.items[i]? = some (.op (.storeRef k)) → f.scanner = some k ∧
    ∀ j : Nat, (∃ l, a.items[j]? = some (.label l)) ∨
      (∃ m, a.items[j]? = some (.op (.loadRef m))) → i < j
  /-- So no path comes to a use of it before it is open, or opens it again. -/
  path_opened : ∀ h i k, Code.Path a.items h i → a.items[i]? = some (.op (.loadRef k)) →
    .storeRef k ∈ h
  path_once : ∀ h i, Code.Path a.items h i → h.countP Instr.isStoreRef ≤ 1

/-- **Slots in finished code.** -/
theorem Generator.slotDiscipline_of_finish {p : Program} {g : Generator} {a : Assembly}
    (hg : empty.generate p = (.ok (), g)) (ha : g.finish = .ok a) :
    SlotDiscipline p g.frame a := by
  have hcalls := calls_of_generate hg
  have howned := wellFormed_of_generate hg
  have hitems := items_of_finish ha
  have hlocals := maxLocals_of_finish ha
  -- the facts are about the frame and the finished items; the assembly has both
  constructor
  case maxLocals => rw [hlocals, hcalls.valid.locals_eq, hcalls.size, hcalls.scanner]
  case bound =>
    intro i k hi hk
    rw [hlocals]
    exact slot_bounds hg (hitems ▸ hi) hk
  case declared => exact slot_of_generate hg
  case apart => exact howned.inj
  case owner =>
    intro τ k hi
    rw [hitems] at hi
    obtain ⟨x, hx⟩ := owner_of_load_or_store hg hi
    exact ⟨x, (slot_of_generate hg x).mpr ⟨k, hx⟩, hx⟩
  case scanner => exact fun k hi => scanner_of_loadRef hg (hitems ▸ hi)
  case scanner_apart =>
    intro τ k hk
    rw [hitems]
    refine ⟨fun hi => ?_, fun hi => ?_⟩
    · obtain ⟨x, hx⟩ := owner_of_load_or_store hg (.inl hi)
      exact howned.scanner_ne x k hk hx
    · obtain ⟨x, hx⟩ := owner_of_load_or_store hg (.inr hi)
      exact howned.scanner_ne x k hk hx
  case once => rw [hitems]; exact countP_storeRef hg
  case opened =>
    intro n k hn
    rw [hitems] at hn ⊢
    rcases opens_or_serves hg (List.mem_of_getElem? hn) rfl with ⟨_, hs⟩ | hs
    · exact ⟨hs, fun m hm => storeRef_lt hg hn hm⟩
    · exact absurd hs id
  case path_opened =>
    rw [hitems]
    exact fun h n k hp hn => path_after_opening hg hp hn
  case path_once =>
    rw [hitems]
    exact fun h n hp => path_opens_once hg hp

/-- Three variables, the scanner and the arguments of the program. -/
theorem Generator.slotDiscipline_of_finish_greeting :
    ∃ g a, empty.generate .greeting = (.ok (), g) ∧ g.finish = .ok a ∧
      SlotDiscipline .greeting g.frame a ∧ a.maxLocals = 5 := by
  obtain ⟨a, ha⟩ := Program.greeting_assembles
  obtain ⟨g, hg, hfin⟩ := Program.assemble_eq_ok.mp ha
  have hslots := slotDiscipline_of_finish hg hfin
  refine ⟨g, a, hg, hfin, hslots, ?_⟩
  rw [hslots.maxLocals]
  decide +kernel

end Dam
