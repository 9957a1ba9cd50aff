import Dam.Proofs.Orders
import Dam.Proofs.RecordedTypes
import Dam.Proofs.Slots

/-!
# Compilation preserves meaning

A terminating run of a program is followed by the machine on the finished code. The
store and the local variables are related by `Mirrors`, which reads the slots off the frame
at the end of the pass. An expression in value position leaves its value on the stack; in
condition position it goes on if it is true and is found at the label if it is false.

The inferred types enter at one place. A load is of the type that the pass remembered for
its node, and a machine that finds something else in the slot is stuck; so the run has to
be one in which every variable node finds a value of that type.
-/

namespace Dam

variable {F : Type} {A : Arithmetic F} {items : List Item} {G : Frame}

/-! ## Stores and local variables -/

/-- The values in the store are in the slots of their variables, and the scanner is open. -/
structure Mirrors (G : Frame) (store : String → Option (Value F)) (L : Nat → Option (Cell F)) :
    Prop where
  var : ∀ x v, store x = some v → ∃ k, G.slot? x = some k ∧ L k = some v.cell
  scanner : ∀ k, G.scanner = some k → L k = some .scanner

theorem Mirrors.start {L : Nat → Option (Cell F)} (lines : List String)
    (h : ∀ k, G.scanner = some k → L k = some .scanner) :
    Mirrors G (Run.start lines : Run F).memory.store L := by
  refine ⟨fun x v hx => ?_, h⟩
  cases hx

theorem Mirrors.set {m : Memory F} {L : Nat → Option (Cell F)} (h : Mirrors G m.store L)
    (hG : G.WellFormed) {x : String} {k : Nat} (hx : G.slot? x = some k) (v : Value F) :
    Mirrors G (m.set x v).store (Function.update L k (some v.cell)) := by
  constructor
  · intro y w hw
    have hstore : (if y = x then some v else m.store y) = some w := hw
    by_cases hy : y = x
    · rw [if_pos hy] at hstore
      cases hstore
      exact ⟨k, hy ▸ hx, Function.update_self ..⟩
    · rw [if_neg hy] at hstore
      obtain ⟨j, hj, hL⟩ := h.var y w hstore
      have hne : j ≠ k := by
        rintro rfl
        exact hy (hG.inj y x j hj hx)
      exact ⟨j, hj, by rw [Function.update_of_ne hne, hL]⟩
  · intro j hj
    have hne : j ≠ k := by
      rintro rfl
      exact hG.scanner_ne x j hj hx
    rw [Function.update_of_ne hne]
    exact h.scanner j hj

/-! ## Single instructions -/

namespace Machine

variable {k : Nat} {σ : List (Cell F)} {L : Nat → Option (Cell F)} {out : List (Value F)}
  {lines : List String}

/-- The constant of a literal is pushed. -/
theorem steps_literal {c : Literal} {i : Instr} {τ : ValueType} {v : Value F}
    (hi : items[k]? = some (.op i)) (hc : c.push? = some (i, τ)) (hv : A.literal c = some v) :
    v.type = τ ∧ Steps A items ⟨k, σ, L, out, lines⟩ ⟨k + 1, v.cell :: σ, L, out, lines⟩ := by
  cases c with
  | null => cases hc
  | number x => cases hc; cases hv; exact ⟨rfl, steps_next hi rfl rfl⟩
  | string s => cases hc; cases hv; exact ⟨rfl, steps_next hi rfl rfl⟩
  | bool b => cases hc; cases hv; cases b <;> exact ⟨rfl, steps_next hi rfl rfl⟩

theorem steps_load {slot : Nat} {v : Value F} (hi : items[k]? = some (.op (.load v.type slot)))
    (hL : L slot = some v.cell) :
    Steps A items ⟨k, σ, L, out, lines⟩ ⟨k + 1, v.cell :: σ, L, out, lines⟩ := by
  refine steps_next hi ?_ rfl
  simp [Instr.run, hL]

theorem steps_store {slot : Nat} {v : Value F} (hi : items[k]? = some (.op (.store v.type slot))) :
    Steps A items ⟨k, v.cell :: σ, L, out, lines⟩
      ⟨k + 1, σ, Function.update L slot (some v.cell), out, lines⟩ := by
  refine steps_next hi ?_ rfl
  simp [Instr.run]

theorem steps_println {v : Value F}
    (hi : items[k]? = some (.op (.invokeVirtual (Gen.println v.type)))) :
    Steps A items ⟨k, v.cell :: .printStream :: σ, L, out, lines⟩
      ⟨k + 1, σ, L, out ++ [v], lines⟩ := by
  refine steps_next hi ?_ rfl
  cases v with
  | number x => rfl
  | string s => rfl
  | bool b => cases b <;> rfl

theorem steps_not {b : Bool} (hat : Code.At items k [.op (.iconst 1), .op .ixor]) :
    Steps A items ⟨k, (Value.bool b).cell :: σ, L, out, lines⟩
      ⟨k + 2, (Value.bool !b).cell :: σ, L, out, lines⟩ := by
  obtain ⟨hone, hxor, _⟩ := hat
  refine (steps_next hone rfl rfl).trans ?_
  cases b <;> exact steps_next hxor rfl rfl

theorem steps_arith {op : ArithOp} {i : Instr} {τ : ValueType} {v w u : Value F}
    (hi : items[k]? = some (.op i)) (hop : Gen.arithInstr? op τ = some i) (hv : v.type = τ)
    (hw : w.type = τ) (hu : A.binary (.arith op) v w = some u) :
    u.type = τ ∧
      Steps A items ⟨k, w.cell :: v.cell :: σ, L, out, lines⟩
        ⟨k + 1, u.cell :: σ, L, out, lines⟩ := by
  subst hv
  cases v with
  | number x =>
      cases w with
      | number y => cases hop; cases hu; exact ⟨rfl, steps_next hi rfl rfl⟩
      | string t => cases hw
      | bool c => cases hw
  | string s =>
      cases w with
      | number y => cases hw
      | string t =>
          cases op with
          | add => cases hop; cases hu; exact ⟨rfl, steps_next hi rfl rfl⟩
          | sub => cases hop
          | mul => cases hop
          | div => cases hop
      | bool c => cases hw
  | bool b => cases hop

theorem steps_goto (hnd : (Code.labels items).Nodup) {t : Label} {j : Nat}
    (hi : items[k]? = some (.op (.goto t))) (hj : items[j]? = some (.label t)) :
    Steps A items ⟨k, σ, L, out, lines⟩ ⟨j + 1, σ, L, out, lines⟩ :=
  (steps_jump hnd hi rfl rfl rfl hj).label hj

/--
From `m` the machine gets to `m'` if `b` is true. If it is false, it gets to the label `t`,
and is otherwise as in `m'`.
-/
def Decides (A : Arithmetic F) (items : List Item) (m : Machine F) (b : Bool) (t : Label)
    (m' : Machine F) : Prop :=
  if b then Steps A items m m'
  else ∀ j, items[j]? = some (.label t) → Steps A items m { m' with pc := j }

theorem Decides.after {m₁ m₂ m₃ : Machine F} {b : Bool} {t : Label} (h : Steps A items m₁ m₂)
    (h' : Decides A items m₂ b t m₃) : Decides A items m₁ b t m₃ := by
  cases b with
  | true => exact h.trans h'
  | false => exact fun j hj => h.trans (h' j hj)

/-- A label after a test is passed if the test succeeds. -/
theorem Decides.label {m : Machine F} {b : Bool} {t t' : Label}
    (h : Decides A items m b t ⟨k, σ, L, out, lines⟩) (hk : items[k]? = some (.label t')) :
    Decides A items m b t ⟨k + 1, σ, L, out, lines⟩ := by
  cases b with
  | true => exact Steps.label h hk
  | false => exact h

variable {κ : Comparison} {t : Label}

/-- An instruction that jumps when `b` is false. -/
theorem decides_branch (hnd : (Code.labels items).Nodup) {i : Instr} {σ' : List (Cell F)} {b : Bool}
    (hi : items[k]? = some (.op i))
    (hrun : i.run A ⟨k, σ', L, out, lines⟩ = some ⟨k, σ, L, out, lines⟩)
    (hl : i.target? = some t) (hjumps : i.jumps σ' = !b) :
    Decides A items ⟨k, σ', L, out, lines⟩ b t ⟨k + 1, σ, L, out, lines⟩ := by
  cases b with
  | true => exact steps_next hi hrun hjumps
  | false => exact fun j hj => steps_jump hnd hi hrun hjumps hl hj

/-- A branch on an integer, which jumps when the comparison does not hold. -/
theorem decides_unless (hnd : (Code.labels items).Nodup)
    (hi : items[k]? = some (.op (.ifZero κ.negate t))) (n : Int) :
    Decides A items ⟨k, .int n :: σ, L, out, lines⟩ (κ.ints n 0) t ⟨k + 1, σ, L, out, lines⟩ :=
  decides_branch hnd hi rfl rfl (κ.ints_negate n 0)

/-- Comparing two floats and branching on the result. -/
theorem decides_floats (hnd : (Code.labels items).Nodup)
    (hcmp : items[k]? = some (.op (Gen.floatCompare κ)))
    (hbr : items[k + 1]? = some (.op (.ifZero κ.negate t))) (x y : F) :
    Decides A items ⟨k, .float y :: .float x :: σ, L, out, lines⟩ (κ.holds (A.order x y)) t
      ⟨k + 2, σ, L, out, lines⟩ := by
  have hstep : Steps A items ⟨k, .float y :: .float x :: σ, L, out, lines⟩
      ⟨k + 1, .int (orderInt (if Gen.floatCompare κ = .fcmpg then 1 else -1) (A.order x y)) :: σ,
        L, out, lines⟩ := by
    cases κ <;> exact steps_next hcmp rfl rfl
  rw [← κ.ints_orderInt (A.order x y)]
  exact .after hstep (decides_unless hnd hbr _)

theorem decides_strings (hnd : (Code.labels items).Nodup)
    (hcmp : items[k]? = some (.op (.invokeVirtual Gen.compareTo)))
    (hbr : items[k + 1]? = some (.op (.ifZero κ.negate t))) (s u : String) :
    Decides A items ⟨k, .string u :: .string s :: σ, L, out, lines⟩
      (κ.holds (some (stringOrder s u))) t ⟨k + 2, σ, L, out, lines⟩ := by
  rw [← κ.ints_string s u]
  exact .after (steps_next hcmp rfl rfl) (decides_unless hnd hbr _)

theorem decides_bools (hnd : (Code.labels items).Nodup)
    (hbr : items[k]? = some (.op (.ifInts κ.negate t))) (b c : Bool) :
    Decides A items ⟨k, (Value.bool c).cell :: (Value.bool b).cell :: σ, L, out, lines⟩
      (κ.holds (some (compare b c))) t ⟨k + 1, σ, L, out, lines⟩ := by
  rw [← κ.ints_bool b c]
  exact decides_branch hnd hbr rfl rfl (κ.ints_negate _ _)

/-- The branch of a comparison decides it. -/
theorem decides_compare (hnd : (Code.labels items).Nodup) {τ : ValueType} {v w u : Value F}
    (hat : Code.At items k (κ.branch t τ)) (hv : v.type = τ) (hw : w.type = τ)
    (hu : A.binary (.compare κ) v w = some u) :
    ∃ b, u = .bool b ∧ Decides A items ⟨k, w.cell :: v.cell :: σ, L, out, lines⟩ b t
      ⟨k + (κ.branch t τ).length, σ, L, out, lines⟩ := by
  subst hv
  cases v with
  | number x =>
      cases w with
      | number y => cases hu; exact ⟨_, rfl, decides_floats hnd hat.1 hat.2.1 x y⟩
      | string s => cases hw
      | bool c => cases hw
  | string s =>
      cases w with
      | number y => cases hw
      | string s' => cases hu; exact ⟨_, rfl, decides_strings hnd hat.1 hat.2.1 s s'⟩
      | bool c => cases hw
  | bool b =>
      cases w with
      | number y => cases hw
      | string s => cases hw
      | bool c => cases hu; exact ⟨_, rfl, decides_bools hnd hat.1 b c⟩

/-- A value in front of a jump that is taken when it is false. -/
theorem decides_value (hnd : (Code.labels items).Nodup)
    (hbr : items[k]? = some (.op (.ifZero .eq t))) (b : Bool) :
    Decides A items ⟨k, (Value.bool b).cell :: σ, L, out, lines⟩ b t ⟨k + 1, σ, L, out, lines⟩ := by
  refine decides_branch hnd hbr rfl rfl ?_
  cases b <;> rfl

/-- The outcome of a condition is turned into a value. -/
theorem steps_materialize (hnd : (Code.labels items).Nodup) {m : Machine F} {b : Bool} {n : Nat}
    (hat : Code.At items k (materializeCode n))
    (h : Decides A items m b (.numbered "FALSE" n) ⟨k, σ, L, out, lines⟩) :
    Steps A items m ⟨k + 5, (Value.bool b).cell :: σ, L, out, lines⟩ := by
  obtain ⟨hone, hgoto, hfalse, hzero, hend, _⟩ := hat
  cases b with
  | true =>
      have hpush := Steps.trans h (steps_next hone rfl rfl)
      exact hpush.trans (steps_goto hnd hgoto hend)
  | false =>
      have hpush := ((h _ hfalse).label hfalse).trans (steps_next hzero rfl rfl)
      exact hpush.label hend

end Machine

/-! ## Expressions -/

/--
From `m` the machine gets to the end of an expression with the value `v`: with the value on top
of the stack of `m'`, or to `m'` itself if it is true, or else to the label of the position.
-/
def ExprPosition.Arrives (A : Arithmetic F) (items : List Item) (v : Value F) (m m' : Machine F) :
    ExprPosition → Prop
  | value τ => v.type = τ ∧ Machine.Steps A items m { m' with stack := v.cell :: m'.stack }
  | test t => ∃ b, v = .bool b ∧ Machine.Decides A items m b t m'

/-- **The code of an expression computes its value.** -/
theorem ExprCode.simulates {e : Expr} {pos : ExprPosition} {s s' : Scope}
    {ts : List (Nat × ValueType)} {c : List Item} (h : ExprCode e pos s s' ts c)
    {T : Nat → Option ValueType} (hG : G.WellFormed) (hnd : (Code.labels items).Nodup)
    (hkeeps : s'.frame.Keeps G) (hT : TypesAgree T ts) {v : Value F} {m m' : Memory F}
    (hev : e.eval A m = some (v, m')) (hfound : TypesAgree T m'.found) {k : Nat} {σ : List (Cell F)}
    {L : Nat → Option (Cell F)} {out : List (Value F)} {lines : List String}
    (hat : Code.At items k c) (hL : Mirrors G m.store L) :
    ∃ L', Mirrors G m'.store L' ∧
      pos.Arrives A items v ⟨k, σ, L, out, lines⟩ ⟨k + c.length, σ, L', out, lines⟩ := by
  induction h generalizing v m m' k σ L with
  | literal hc =>
      obtain ⟨hv, rfl⟩ := Expr.eval_literal hev
      exact ⟨L, hL, Machine.steps_literal hat.1 hc hv⟩
  | @var n x w s hx =>
      obtain ⟨hstore, rfl⟩ := Expr.eval_var hev
      obtain ⟨_, hslot⟩ := Frame.table_eq_some.mp hx
      -- the node finds a value of the type that was remembered for it
      have htype : v.type = w.type := by
        have hrun : T n.id = some v.type := hfound (n.id, v.type) (by simp)
        have hpass : T n.id = some w.type := hT (n.id, w.type) (by simp)
        exact Option.some.inj (hrun.symm.trans hpass)
      obtain ⟨j, hj, hcell⟩ := hL.var x v hstore
      have hjw : j = w.slot := Option.some.inj (hj.symm.trans (hkeeps.slot x _ hslot))
      subst hjw
      refine ⟨L, hL, htype, ?_⟩
      have hload := hat.1
      rw [← htype] at hload
      exact Machine.steps_load hload hcell
  | not _ ih =>
      obtain ⟨w, ha, hw⟩ := Expr.eval_unary hev
      obtain ⟨hcode, hrest⟩ := (Code.at_append ..).mp hat
      obtain ⟨L', hL', htype, hsteps⟩ := ih hkeeps hT.left ha hfound hcode hL
      cases w with
      | number x => cases htype
      | string s => cases htype
      | bool b =>
          cases hw
          refine ⟨L', hL', rfl, ?_⟩
          rw [List.length_append, ← Nat.add_assoc]
          exact hsteps.trans (Machine.steps_not hrest)
  | neg _ ih =>
      obtain ⟨w, ha, hw⟩ := Expr.eval_unary hev
      obtain ⟨hcode, hneg, _⟩ := (Code.at_append ..).mp hat
      obtain ⟨L', hL', htype, hsteps⟩ := ih hkeeps hT.left ha hfound hcode hL
      cases w with
      | number x =>
          cases hw
          refine ⟨L', hL', rfl, ?_⟩
          rw [List.length_append, ← Nat.add_assoc]
          exact hsteps.trans (Machine.steps_next hneg rfl rfl)
      | string s => cases htype
      | bool b => cases htype
  | @arith n l r op τ i s s₁ s₂ ts₁ ts₂ c₁ c₂ _ hr hi ih₁ ih₂ =>
      obtain ⟨v₁, m₁, v₂, hl, hr', hu⟩ := Expr.eval_binary hev
      simp only [Code.at_append, List.length_append, ← Nat.add_assoc] at hat ⊢
      obtain ⟨⟨hleft, hright⟩, hop, _⟩ := hat
      obtain ⟨L₁, hL₁, htype₁, hsteps₁⟩ := ih₁ (hr.frameGrows.keeps.trans hkeeps)
        hT.left.left hl (hfound.of_prefix (Expr.found_eval hr')) hleft hL
      obtain ⟨L₂, hL₂, htype₂, hsteps₂⟩ := ih₂ hkeeps hT.left.right hr' hfound hright hL₁
      obtain ⟨htype, hstep⟩ := Machine.steps_arith hop hi htype₁ htype₂ hu
      exact ⟨L₂, hL₂, htype, (hsteps₁.trans hsteps₂).trans hstep⟩
  | materialize _ _ ih =>
      obtain ⟨hcode, hrest⟩ := (Code.at_append ..).mp hat
      obtain ⟨L', hL', b, rfl, hdec⟩ := ih hkeeps hT.left hev hfound hcode hL
      refine ⟨L', hL', rfl, ?_⟩
      rw [List.length_append, ← Nat.add_assoc]
      exact Machine.steps_materialize hnd hrest hdec
  | grouping _ ih => exact ih hkeeps hT.left hev hfound hat hL
  | @assign n x a τ slot s s₁ f ts c _ hf ih =>
      obtain ⟨m₁, ha, rfl⟩ := Expr.eval_assign hev
      have hst := Frame.stores_of_assign hf
      obtain ⟨hcode, hdup, hstore, _⟩ := (Code.at_append ..).mp hat
      obtain ⟨L', hL', htype, hsteps⟩ := ih (hst.keeps.trans hkeeps) hT.left ha hfound hcode hL
      refine ⟨_, hL'.set hG (hkeeps.slot x slot hst.slot) v, htype, ?_⟩
      rw [List.length_append, ← Nat.add_assoc]
      subst htype
      exact (hsteps.trans (Machine.steps_next hdup rfl rfl)).trans (Machine.steps_store hstore)
  | compare _ hr ih₁ ih₂ =>
      obtain ⟨v₁, m₁, v₂, hl, hr', hu⟩ := Expr.eval_binary hev
      simp only [Code.at_append, List.length_append, ← Nat.add_assoc] at hat ⊢
      obtain ⟨⟨hleft, hright⟩, hbr⟩ := hat
      obtain ⟨L₁, hL₁, htype₁, hsteps₁⟩ := ih₁ (hr.frameGrows.keeps.trans hkeeps)
        hT.left.left hl (hfound.of_prefix (Expr.found_eval hr')) hleft hL
      obtain ⟨L₂, hL₂, htype₂, hsteps₂⟩ := ih₂ hkeeps hT.left.right hr' hfound hright hL₁
      obtain ⟨b, hb, hdec⟩ := Machine.decides_compare hnd hbr htype₁ htype₂ hu
      exact ⟨L₂, hL₂, b, hb, .after (hsteps₁.trans hsteps₂) hdec⟩
  | and _ hr ih₁ ih₂ =>
      obtain ⟨b, m₁, hl, hcases⟩ := Expr.eval_logical hev
      obtain ⟨hleft, hright⟩ := (Code.at_append ..).mp hat
      rw [List.length_append, ← Nat.add_assoc]
      have hkeeps₁ := hr.frameGrows.keeps.trans hkeeps
      rcases hcases with ⟨hdecided, rfl, rfl⟩ | ⟨hopen, d, hr', rfl⟩
      · obtain rfl : b = false := by simpa [LogicalOp.decided] using hdecided
        obtain ⟨L₁, hL₁, _, ⟨⟩, hdec⟩ := ih₁ hkeeps₁ hT.left.left hl hfound hleft hL
        exact ⟨L₁, hL₁, false, rfl, hdec⟩
      · obtain rfl : b = true := by simpa [LogicalOp.decided] using hopen
        obtain ⟨L₁, hL₁, _, ⟨⟩, hdec₁⟩ := ih₁ hkeeps₁ hT.left.left hl
          (hfound.of_prefix (Expr.found_eval hr')) hleft hL
        obtain ⟨L₂, hL₂, _, ⟨⟩, hdec₂⟩ := ih₂ hkeeps hT.left.right hr' hfound hright hL₁
        exact ⟨L₂, hL₂, d, rfl, .after hdec₁ hdec₂⟩
  | or _ hr ih₁ ih₂ =>
      obtain ⟨b, m₁, hl, hcases⟩ := Expr.eval_logical hev
      simp only [Code.at_append, Code.at_cons, List.length_append, List.length_cons,
        List.length_nil, ← Nat.add_assoc] at hat ⊢
      obtain ⟨⟨⟨hleft, hgoto, hrhs, _⟩, hright⟩, htrue, _⟩ := hat
      have hkeeps₁ := hr.frameGrows.keeps.trans hkeeps
      rcases hcases with ⟨hdecided, rfl, rfl⟩ | ⟨hopen, d, hr', rfl⟩
      · -- a true left operand jumps over the right one
        obtain rfl : b = true := by simpa [LogicalOp.decided] using hdecided
        obtain ⟨L₁, hL₁, _, ⟨⟩, hdec⟩ := ih₁ hkeeps₁ hT.left.left hl hfound hleft hL
        refine ⟨L₁, hL₁, true, rfl, ?_⟩
        exact Machine.Steps.trans hdec (Machine.steps_goto hnd hgoto htrue)
      · -- a false one arrives at the label before the right one
        obtain rfl : b = false := by simpa [LogicalOp.decided] using hopen
        obtain ⟨L₁, hL₁, _, ⟨⟩, hdec₁⟩ := ih₁ hkeeps₁ hT.left.left hl
          (hfound.of_prefix (Expr.found_eval hr')) hleft hL
        obtain ⟨L₂, hL₂, _, ⟨⟩, hdec₂⟩ := ih₂ hkeeps hT.left.right hr' hfound hright hL₁
        refine ⟨L₂, hL₂, d, rfl, ?_⟩
        have hdec := Machine.Decides.after ((hdec₁ _ hrhs).label hrhs) hdec₂
        exact hdec.label htrue
  | groupingTest _ ih => exact ih hkeeps hT.left hev hfound hat hL
  | branch _ _ ih =>
      obtain ⟨hcode, hbr, _⟩ := (Code.at_append ..).mp hat
      obtain ⟨L', hL', htype, hsteps⟩ := ih hkeeps hT.left hev hfound hcode hL
      obtain ⟨b, rfl⟩ := Value.eq_bool_of_type htype
      refine ⟨L', hL', b, rfl, ?_⟩
      rw [List.length_append, ← Nat.add_assoc]
      exact .after hsteps (Machine.decides_value hnd hbr b)

/-! ## Statements -/

/-- **The code of a statement does what the statement does.** -/
theorem Exec.simulates {st : Stmt} {r r' : Run F} (h : Exec A st r r')
    {T : Nat → Option ValueType} (hG : G.WellFormed) (hnd : (Code.labels items).Nodup)
    (hfound : TypesAgree T r'.memory.found) {s s' : Scope} {ts : List (Nat × ValueType)}
    {c : List Item} (hc : StmtCode st s s' ts c) (hkeeps : s'.frame.Keeps G) (hT : TypesAgree T ts)
    {k : Nat} {σ : List (Cell F)} {L : Nat → Option (Cell F)} (hat : Code.At items k c)
    (hL : Mirrors G r.memory.store L) :
    ∃ L', Mirrors G r'.memory.store L' ∧
      Machine.Steps A items ⟨k, σ, L, r.output, r.lines⟩
        ⟨k + c.length, σ, L', r'.output, r'.lines⟩ := by
  induction h generalizing s s' ts c k L with
  | @declare sp x e r v m he =>
      cases hc with
      | declare hc hf =>
          have hst := Frame.stores_of_define hf
          obtain ⟨hcode, hstore, _⟩ := (Code.at_append ..).mp hat
          obtain ⟨L', hL', htype, hsteps⟩ := hc.simulates hG hnd (hst.keeps.trans hkeeps) hT he
            hfound hcode hL
          refine ⟨_, hL'.set hG (hkeeps.slot x _ hst.slot) v, ?_⟩
          subst htype
          rw [List.length_append, ← Nat.add_assoc]
          exact hsteps.trans (Machine.steps_store hstore)
  | @print sp e r v m he =>
      cases hc with
      | print hc =>
          simp only [Code.at_append, Code.at_cons, List.length_append, ← Nat.add_assoc] at hat ⊢
          obtain ⟨⟨⟨hout, _⟩, hcode⟩, hprint, _⟩ := hat
          obtain ⟨L', hL', htype, hsteps⟩ := hc.simulates hG hnd hkeeps hT he hfound hcode hL
          subst htype
          exact ⟨L', hL', (Machine.Steps.trans (Machine.steps_next hout rfl rfl) hsteps).trans
            (Machine.steps_println hprint)⟩
  | @read sp x r line rest hlines =>
      cases hc with
      | read hf hf' =>
          have ho := Frame.opens_of_useScanner hf
          have hst := Frame.stores_of_assign hf'
          obtain ⟨hload, hcall, hstore, _⟩ := hat
          have hscanner := hL.scanner _ ((hst.keeps.trans hkeeps).scanner _ ho.scanner)
          refine ⟨_, hL.set hG (hkeeps.slot x _ hst.slot) (.string line), ?_⟩
          have hopen : Machine.Steps A items ⟨k, σ, L, r.output, r.lines⟩
              ⟨k + 1, .scanner :: σ, L, r.output, line :: rest⟩ := by
            rw [hlines]
            exact Machine.steps_next hload (by simp [Instr.run, hscanner]) rfl
          exact (hopen.trans (Machine.steps_next hcall rfl rfl)).trans
            (Machine.steps_store (v := .string line) hstore)
  | ifThen he hrun ih =>
      cases hc with
      | ifThen hc hyes =>
          simp only [Code.at_append, Code.at_cons, List.length_append, ← Nat.add_assoc] at hat ⊢
          obtain ⟨⟨⟨hcond, hthen, _⟩, hbody⟩, hend, _⟩ := hat
          obtain ⟨L₁, hL₁, _, ⟨⟩, hdec⟩ := hc.simulates hG hnd (hyes.frameGrows.keeps.trans hkeeps)
            hT.left he (hfound.of_prefix hrun.found) hcond hL
          obtain ⟨L₂, hL₂, hsteps⟩ := ih hfound hyes hkeeps hT.right hbody hL₁
          exact ⟨L₂, hL₂, (Machine.Steps.trans (hdec.label hthen) hsteps).label hend⟩
  | ifSkip he =>
      cases hc with
      | ifThen hc hyes =>
          simp only [Code.at_append, Code.at_cons, List.length_append, ← Nat.add_assoc] at hat ⊢
          obtain ⟨⟨⟨hcond, hthen, _⟩, hbody⟩, hend, _⟩ := hat
          obtain ⟨L₁, hL₁, _, ⟨⟩, hdec⟩ := hc.simulates hG hnd (hyes.frameGrows.keeps.trans hkeeps)
            hT.left he hfound hcond hL
          exact ⟨L₁, hL₁, (hdec _ hend).label hend⟩
  | ifYes he hrun ih =>
      cases hc with
      | ifElse hc hyes hno =>
          simp only [Code.at_append, Code.at_cons, List.length_append, ← Nat.add_assoc] at hat ⊢
          obtain ⟨⟨⟨⟨⟨hcond, hthen, _⟩, hbody⟩, hgoto, helse, _⟩, hother⟩, hend, _⟩ := hat
          have hkeeps₂ := hno.frameGrows.keeps.trans hkeeps
          obtain ⟨L₁, hL₁, _, ⟨⟩, hdec⟩ := hc.simulates hG hnd (hyes.frameGrows.keeps.trans hkeeps₂)
            hT.left.left he (hfound.of_prefix hrun.found) hcond hL
          obtain ⟨L₂, hL₂, hsteps⟩ := ih hfound hyes hkeeps₂ hT.left.right hbody hL₁
          exact ⟨L₂, hL₂, (Machine.Steps.trans (hdec.label hthen) hsteps).trans
            (Machine.steps_goto hnd hgoto hend)⟩
  | ifNo he hrun ih =>
      cases hc with
      | ifElse hc hyes hno =>
          simp only [Code.at_append, Code.at_cons, List.length_append, ← Nat.add_assoc] at hat ⊢
          obtain ⟨⟨⟨⟨⟨hcond, hthen, _⟩, hbody⟩, hgoto, helse, _⟩, hother⟩, hend, _⟩ := hat
          have hkeeps₂ := hno.frameGrows.keeps.trans hkeeps
          obtain ⟨L₁, hL₁, _, ⟨⟩, hdec⟩ := hc.simulates hG hnd (hyes.frameGrows.keeps.trans hkeeps₂)
            hT.left.left he (hfound.of_prefix hrun.found) hcond hL
          obtain ⟨L₂, hL₂, hsteps⟩ := ih hfound hno hkeeps hT.right hother hL₁
          exact ⟨L₂, hL₂, (((hdec _ helse).label helse).trans hsteps).label hend⟩
  | whileAgain he hrun hagain ih₁ ih₂ =>
      cases hc with
      | whileDo hc hbody =>
          have hloop := hat
          simp only [Code.at_append, Code.at_cons, List.length_append, ← Nat.add_assoc] at hloop
          obtain ⟨⟨⟨⟨hstart, _⟩, hcond⟩, hcode⟩, hgoto, hend, _⟩ := hloop
          obtain ⟨L₁, hL₁, _, ⟨⟩, hdec⟩ := hc.simulates hG hnd (hbody.frameGrows.keeps.trans hkeeps)
            hT.left he (hfound.of_prefix (hrun.found.trans hagain.found)) hcond hL
          obtain ⟨L₂, hL₂, hsteps⟩ := ih₁ (hfound.of_prefix hagain.found) hbody hkeeps
            hT.right hcode hL₁
          -- the body ends with a jump to the label in front of the condition
          obtain ⟨L₃, hL₃, hrest⟩ := ih₂ hfound (.whileDo hc hbody) hkeeps hT hat hL₂
          have hagain := (Machine.steps_jump hnd hgoto rfl rfl rfl hstart).trans hrest
          exact ⟨L₃, hL₃, ((Machine.steps_label hstart).trans hdec).trans (hsteps.trans hagain)⟩
  | whileDone he =>
      cases hc with
      | whileDo hc hbody =>
          simp only [Code.at_append, Code.at_cons, List.length_append, ← Nat.add_assoc] at hat ⊢
          obtain ⟨⟨⟨⟨hstart, _⟩, hcond⟩, hcode⟩, hgoto, hend, _⟩ := hat
          obtain ⟨L₁, hL₁, _, ⟨⟩, hdec⟩ := hc.simulates hG hnd (hbody.frameGrows.keeps.trans hkeeps)
            hT.left he hfound hcond hL
          exact ⟨L₁, hL₁, ((Machine.steps_label hstart).trans (hdec _ hend)).label hend⟩
  | nil =>
      cases hc with
      | nil => exact ⟨L, hL, .refl⟩
  | cons hrun hmore ih₁ ih₂ =>
      cases hc with
      | cons hc hcs =>
          obtain ⟨hcode, hrest⟩ := (Code.at_append ..).mp hat
          obtain ⟨L₁, hL₁, hsteps₁⟩ := ih₁ (hfound.of_prefix hmore.found) hc
            (hcs.frameGrows.keeps.trans hkeeps) hT.left hcode hL
          obtain ⟨L₂, hL₂, hsteps₂⟩ := ih₂ hfound hcs hkeeps hT.right hrest hL₁
          rw [List.length_append, ← Nat.add_assoc]
          exact ⟨L₂, hL₂, hsteps₁.trans hsteps₂⟩
  | expression he =>
      cases hc with
      | @store _ n x a τ slot s s₁ f ts c hc hf =>
          obtain ⟨m₁, ha, rfl⟩ := Expr.eval_assign he
          have hst := Frame.stores_of_assign hf
          obtain ⟨hcode, hstore, _⟩ := (Code.at_append ..).mp hat
          obtain ⟨L', hL', htype, hsteps⟩ := hc.simulates hG hnd (hst.keeps.trans hkeeps)
            hT.left ha hfound hcode hL
          refine ⟨_, hL'.set hG (hkeeps.slot x slot hst.slot) _, ?_⟩
          subst htype
          rw [List.length_append, ← Nat.add_assoc]
          exact hsteps.trans (Machine.steps_store hstore)
      | drop _ hc =>
          obtain ⟨hcode, hpop, _⟩ := (Code.at_append ..).mp hat
          obtain ⟨L', hL', _, hsteps⟩ := hc.simulates hG hnd hkeeps hT he hfound hcode hL
          rw [List.length_append, ← Nat.add_assoc]
          exact ⟨L', hL', hsteps.trans (Machine.steps_next hpop rfl rfl)⟩

/-! ## Programs -/

/-- Opening the scanner leaves it in its slot. -/
theorem Machine.steps_openScanner {k slot : Nat} {L : Nat → Option (Cell F)}
    {out : List (Value F)} {lines : List String}
    (hat : Code.At items k ((Gen.openScanner slot).map .op)) :
    Machine.Steps A items ⟨k, [], L, out, lines⟩
      ⟨k + 5, [], Function.update L slot (some .scanner), out, lines⟩ := by
  obtain ⟨hnew, hdup, hin, hinit, hstore, _⟩ := hat
  have hraw : Steps A items ⟨k, [], L, out, lines⟩
      ⟨k + 2, [.rawScanner, .rawScanner], L, out, lines⟩ :=
    (steps_next hnew rfl rfl).trans (steps_next hdup rfl rfl)
  have hopen : Steps A items ⟨k, [], L, out, lines⟩ ⟨k + 4, [.scanner], L, out, lines⟩ :=
    (hraw.trans (steps_next hin rfl rfl)).trans (steps_next hinit rfl rfl)
  exact hopen.trans (steps_next hstore rfl rfl)

/-- In front of the code of the program, the scanner is opened if the program reads. -/
theorem Generator.steps_prologue (g : Generator) (L : Nat → Option (Cell F))
    (lines : List String) (hat : Code.At items 0 g.prologue) :
    ∃ L', Mirrors g.frame (Run.start lines : Run F).memory.store L' ∧
      Machine.Steps A items ⟨0, [], L, [], lines⟩ ⟨0 + g.prologue.length, [], L', [], lines⟩ := by
  unfold prologue at hat ⊢
  cases hs : g.frame.scanner with
  | none =>
      refine ⟨L, .start lines fun k hk => ?_, .refl⟩
      cases hs.symm.trans hk
  | some slot =>
      rw [hs] at hat
      refine ⟨_, .start lines fun k hk => ?_, Machine.steps_openScanner hat⟩
      cases hs.symm.trans hk
      exact Function.update_self ..

/--
**Compilation preserves meaning.** A terminating run of a program in which variables have the
types that were remembered for their nodes is followed by the machine on the finished code.
-/
theorem Program.runs_preserved {p : Program} {g : Generator} {a : Assembly} {lines : List String}
    {r : Run F} (hids : p.ids.Nodup) (hgen : Generator.empty.generate p = (.ok (), g))
    (hfin : g.finish = .ok a) (hrun : p.Runs A lines r)
    (hfound : ∀ n ∈ r.memory.found, g.types[n.1]? = some n.2) (L₀ : Nat → Option (Cell F)) :
    ∃ L, Machine.Steps A a.items ⟨0, [], L₀, [], lines⟩
        ⟨a.items.length, [], L, r.output, r.lines⟩ ∧
      ∀ x v, r.memory.store x = some v → ∃ k, g.frame.slot? x = some k ∧ L k = some v.cell := by
  obtain ⟨ts, hcode, htypes⟩ := Generator.generate_code hgen
  have hT : TypesAgree (g.types[·]?) ts := by
    intro n hn
    rw [htypes]
    exact (hcode.recorded hids).getElem?_foldl hn
  obtain ⟨hprologue, hitems⟩ := g.at_finishedItems
  obtain ⟨L₁, hL₁, hopen⟩ := g.steps_prologue L₀ lines hprologue
  -- the slots are those of the last frame, which keeps all that were given out before
  obtain ⟨L₂, hL₂, hsteps⟩ := hrun.simulates (Generator.wellFormed_of_generate hgen)
    (Generator.finished_labels_nodup hgen) hfound hcode (.refl g.frame) hT hitems hL₁
  have hlength : a.items.length = 0 + g.prologue.length + g.items.length := by
    rw [Generator.items_of_finish hfin, Generator.finishedItems_eq, List.length_append,
      Nat.zero_add]
  rw [hlength, Generator.items_of_finish hfin]
  exact ⟨L₂, hopen.trans hsteps, hL₂.var⟩

/-- Exact arithmetic on rational numbers. -/
def Arithmetic.exact : Arithmetic Rat where
  constant x := (if x.isNegative then -1 else 1) * x.units / twoTo 1074
  apply
    | .add, x, y => x + y
    | .sub, x, y => x - y
    | .mul, x, y => x * y
    | .div, x, y => x / y
  negate x := -x
  order x y := some (compareOfLessAndEq x y)

/-- The run of `greeting` with one line: one round of its loop, and the second branch. -/
theorem Program.greeting_runs : ∃ r : Run Rat, greeting.Runs .exact ["world"] r ∧
    r.output = [.string "hello world", .number 0] ∧ r.lines = [] ∧
    r.memory.found = [(4, .string), (10, .bool), (13, .string), (16, .bool), (10, .bool),
      (18, .bool), (22, .numeric)] := by
  have hzero : Arithmetic.exact.constant (.zero false) = 0 := by decide +kernel
  rw [← hzero]
  refine ⟨_, .cons (.declare rfl) (.cons (.declare rfl) (.cons (.read rfl) (.cons (.declare rfl)
    (.cons (.whileAgain rfl (.cons (.print rfl) (.cons (.expression rfl) .nil)) (.whileDone rfl))
      (.cons (.ifNo rfl (.print rfl)) .nil))))), rfl, rfl, rfl⟩

theorem Program.runs_preserved_greeting :
    ∃ a L, greeting.assemble = .ok a ∧
      Machine.Steps .exact a.items ⟨0, [], fun _ => none, [], ["world"]⟩
        ⟨a.items.length, [], L, [.string "hello world", .number 0], []⟩ := by
  obtain ⟨a, ha⟩ := greeting_assembles
  obtain ⟨g, hgen, hfin⟩ := assemble_eq_ok.mp ha
  obtain ⟨r, hrun, hout, hlines, hfound⟩ := greeting_runs
  have hids : greeting.ids.Nodup := by decide
  have htypes : ∀ n ∈ r.memory.found, g.types[n.1]? = some n.2 := by
    have hg : g = (Generator.empty.generate greeting).2 := by rw [hgen]
    rw [hg, hfound]
    decide +kernel
  obtain ⟨L, hsteps, _⟩ := runs_preserved hids hgen hfin hrun htypes fun _ => none
  rw [hout, hlines] at hsteps
  exact ⟨a, L, ha, hsteps⟩

end Dam
