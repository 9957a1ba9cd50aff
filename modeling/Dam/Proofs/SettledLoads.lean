import Dam.Proofs.LastStore
import Dam.Proofs.ReachingStores

/-!
# Loads find the type they name

A path through generated code is safe when each load on it finds that the last store
into its slot was of the type the load names. `Program.settled` computes from the
program whether all paths are.

A settled program has safe paths: `Code.Tracks` makes what reaches a position the fact
that a certificate attaches to it. A program whose paths are safe is settled:
`Realised` says that what was computed for a position does reach it, on some path,
and a load that is not settled is on one that is not safe.
-/

namespace Dam

/-! ## What is computed covers every path -/

namespace Code

/-- What an instruction does to the stores that reach it. A load has to be settled. -/
def Tracks (F : Frame) : Instr → Reaching → Reaching → Prop
  | .store τ k, P, P' => ∃ x, F.slot? x = some k ∧ P' = P.store x τ
  | .load τ k, P, P' => (∃ x, F.slot? x = some k ∧ ∀ r, P x r = true → r = some τ) ∧ P' = P
  | _, P, P' => P' = P

/-- The path with history `h` is one of those that `P` speaks of. -/
def Covers (F : Frame) (P : Reaching) (h : List Instr) : Prop :=
  ∀ x k, F.slot? x = some k → P x (lastStore k h) = true

theorem covers_start (F : Frame) : Covers F .start [] := fun _ _ _ => rfl

theorem Covers.within {F : Frame} {P Q : Reaching} {h : List Instr} (hc : Covers F P h)
    (hPQ : P.Within Q) : Covers F Q h :=
  fun x k hk => hPQ x _ (hc x k hk)

theorem Tracks.of_neither {F : Frame} {i : Instr} (hi : i.isStore = false ∧ i.isLoad = false)
    (P : Reaching) : Tracks F i P P := by
  cases i with
  | store τ k => cases hi.1
  | load τ k => cases hi.2
  | _ => rfl

theorem Tracks.covers {F : Frame} (hF : F.WellFormed) {i : Instr} {P P' : Reaching}
    {h : List Instr} (ht : Tracks F i P P') (hc : Covers F P h) : Covers F P' (i :: h) := by
  cases i with
  | store τ k =>
      obtain ⟨x, hx, rfl⟩ := ht
      intro y j hy
      rw [lastStore_store]
      by_cases hj : k = j
      · subst hj
        have hyx : y = x := hF.inj y x k hy hx
        subst hyx
        simp [Reaching.store]
      · have hyx : y ≠ x := by
          rintro rfl
          rw [hx] at hy
          exact hj (Option.some.inj hy)
        rw [if_neg hj, Reaching.store, Function.update_of_ne hyx]
        exact hc y j hy
  | load τ k =>
      obtain ⟨_, rfl⟩ := ht
      intro y j hy
      rw [lastStore_of_not_isStore rfl]
      exact hc y j hy
  | _ =>
      have hP : P' = P := ht
      subst hP
      intro y j hy
      rw [lastStore_of_not_isStore rfl]
      exact hc y j hy

/-- Certified code is safe. -/
theorem loadsSafe_of_certificate {F : Frame} (hF : F.WellFormed) {items : List Item}
    {A : Nat → Reaching} (hA : Certificate (Tracks F) Reaching.Within items A)
    (hstart : Reaching.start.Within (A 0)) : LoadsSafe items := by
  intro h i τ slot hpath hi
  have hcovers : Covers F (A i) h :=
    hA.sound (Covers F) (fun _ _ _ hle hc => hc.within hle) (fun _ _ _ _ ht hc => ht.covers hF hc)
      ((covers_start F).within hstart) hpath
  obtain ⟨_, ⟨⟨x, hx, honly⟩, _⟩, _⟩ := hA.op i _ hi
  exact honly _ (hcovers x slot hx)

end Code

/-- What reaches the end of an expression in a position. -/
def ExprPosition.exit : ExprPosition → Outcomes → Reaching
  | value _, o => o.both
  | test _, o => o.yes

namespace Code

/-- A walk that follows the stores. -/
abbrev Leads (F : Frame) (Δ : Label → Reaching) := Carries (Tracks F) Reaching.Within Δ

variable {F : Frame} {Δ : Label → Reaching}

/-- An instruction that neither loads nor stores, and jumps nowhere. -/
theorem Leads.pass (i : Instr) (P : Reaching) (hi : i.isStore = false ∧ i.isLoad = false)
    (ht : i.target? = none) : Leads F Δ [] [.op i] P P :=
  .next (.of_neither hi P) ht

theorem Leads.store {x : String} {k : Nat} (τ : ValueType) (P : Reaching)
    (hx : F.slot? x = some k) : Leads F Δ [] [.op (.store τ k)] P (P.store x τ) :=
  .next ⟨x, hx, rfl⟩ rfl

theorem Leads.fall {l : Label} {P Q : Reaching} (hl : Δ l = Q) (hPQ : P.Within Q) :
    Leads F Δ [] [.label l] P Q := by
  subst hl
  exact Carries.fall hPQ

theorem Leads.turn {o : List Label} {a b : Label} {c : List Item} {P P' Q R : Reaching}
    (h : Leads F Δ o c P P') (hb : b ∈ o) (ha : Δ a = Q) (hle : P'.Within Q) (hl : Δ b = R) :
    Leads F Δ (a :: o) (c ++ [.op (.goto a), .label b]) P R := by
  subst ha hl
  exact Carries.turn h hb rfl hle

/-- The branch of a comparison leaves everything as it is, on both ways. -/
theorem Leads.compare {k : Comparison} {t : Label} {P : Reaching} (τ : ValueType)
    (ht : P.Within (Δ t)) : Leads F Δ [t] (k.branch t τ) P P := by
  cases τ with
  | numeric =>
      exact (Leads.pass _ P (Gen.isStore_floatCompare k) (by cases k <;> rfl)).append
        (.branch rfl rfl rfl ht)
  | string =>
      exact (Leads.pass (.invokeVirtual Gen.compareTo) P ⟨rfl, rfl⟩ rfl).append
        (.branch rfl rfl rfl ht)
  | bool => exact .branch rfl rfl rfl ht

end Code

/--
**The code of an expression whose loads are settled is certified**, with what reaches
its outcomes at its end and where it jumps to.
-/
theorem ExprCode.leads {e : Expr} {pos : ExprPosition} {s s' : Scope}
    {ts : List (Nat × ValueType)} {c : List Item} {F : Frame} (h : ExprCode e pos s s' ts c)
    (hF : s'.frame.Keeps F) (P : Reaching) (hs : (e.flow s.frame.type? P).settled = true) :
    ∃ Γ : List (Label × Reaching), Γ.map Prod.fst = Code.labels c ∧
      ∀ Δ, Code.Agrees Δ Γ →
        (∀ t ∈ pos.outer, (e.flow s.frame.type? P).no.Within (Δ t)) →
        Code.Leads F Δ pos.outer c P (pos.exit (e.flow s.frame.type? P)) := by
  induction h generalizing P with
  | literal hv =>
      refine ⟨[], rfl, fun Δ _ _ => ?_⟩
      simp only [Expr.flow, ExprPosition.exit, Outcomes.same_both]
      exact Code.Leads.pass _ P (Literal.isStore_push hv) (Literal.target?_push hv)
  | @var n x v s hx =>
      simp only [Expr.flow, ExprPosition.exit, Outcomes.same_both, Outcomes.same_settled] at hs ⊢
      refine ⟨[], rfl, fun Δ _ _ => ?_⟩
      obtain ⟨htype, hslot⟩ := Frame.table_eq_some.mp hx
      rw [htype] at hs
      exact .next ⟨⟨x, hF.slot x _ hslot, Reaching.only_iff.mp hs⟩, rfl⟩ rfl
  | not _ ih =>
      simp only [Expr.flow, ExprPosition.exit, Outcomes.same_both, Outcomes.same_settled] at hs ⊢
      obtain ⟨Γ, hkeys, hc⟩ := ih hF P hs
      refine ⟨Γ, by simp [hkeys], fun Δ hΔ _ => ?_⟩
      exact (hc Δ hΔ (by simp)).append
        ((Code.Leads.pass (.iconst 1) _ ⟨rfl, rfl⟩ rfl).append
          (Code.Leads.pass .ixor _ ⟨rfl, rfl⟩ rfl))
  | neg _ ih =>
      simp only [Expr.flow, ExprPosition.exit, Outcomes.same_both, Outcomes.same_settled] at hs ⊢
      obtain ⟨Γ, hkeys, hc⟩ := ih hF P hs
      refine ⟨Γ, by simp [hkeys], fun Δ hΔ _ => ?_⟩
      exact (hc Δ hΔ (by simp)).append (Code.Leads.pass .fneg _ ⟨rfl, rfl⟩ rfl)
  | @arith n l r op τ i s s₁ s₂ ts₁ ts₂ c₁ c₂ hl hr hi ih₁ ih₂ =>
      simp only [Expr.flow, ExprPosition.exit, Outcomes.same_both, Outcomes.same_settled,
        Bool.and_eq_true, hl.infer] at hs ⊢
      obtain ⟨Γ₁, hkeys₁, hc₁⟩ := ih₁ (hr.frameGrows.keeps.trans hF) P hs.1
      obtain ⟨Γ₂, hkeys₂, hc₂⟩ := ih₂ hF _ hs.2
      refine ⟨Γ₁ ++ Γ₂, by simp [hkeys₁, hkeys₂], fun Δ hΔ _ => ?_⟩
      obtain ⟨hΔ₁, hΔ₂⟩ := (Code.agrees_append Δ Γ₁ Γ₂).mp hΔ
      exact ((hc₁ Δ hΔ₁ (by simp)).append (hc₂ Δ hΔ₂ (by simp))).append
        (Code.Leads.pass i _ (Gen.isStore_arithInstr hi) (Gen.target?_arithInstr hi))
  | @materialize e s s' ts c _ _ ih =>
      rw [Scope.next_frame] at ih
      obtain ⟨Γ, hkeys, hc⟩ := ih hF P hs
      refine ⟨Γ ++ [(.numbered "FALSE" s.group, (e.flow s.frame.type? P).no),
          (.numbered "BOOL_END" s.group, (e.flow s.frame.type? P).both)],
        by simp [hkeys, materializeCode], fun Δ hΔ _ => ?_⟩
      simp only [Code.agrees_append, Code.agrees_cons, Code.agrees_nil, and_true] at hΔ
      obtain ⟨hΔ, hfalse, hend⟩ := hΔ
      have htest := hc Δ hΔ (by simp [hfalse, Reaching.Within.refl])
      have hone := htest.append (Code.Leads.pass (.iconst 1) _ ⟨rfl, rfl⟩ rfl)
      have hturn := Code.Leads.turn hone (by simp) hend (Reaching.within_join_left _ _) hfalse
      have hzero := hturn.append (Code.Leads.pass (.iconst 0) _ ⟨rfl, rfl⟩ rfl)
      have hall := hzero.append (Code.Leads.fall hend (Reaching.within_join_right _ _))
      have hclosed : Code.Leads F Δ [] _ P (e.flow s.frame.type? P).both := hall.weaken (by simp)
      simpa [materializeCode, ExprPosition.exit] using hclosed
  | grouping _ ih => exact ih hF P hs
  | @assign n x a τ slot s s₁ f ts c ha hf ih =>
      simp only [Expr.flow, ExprPosition.exit, Outcomes.same_both, Outcomes.same_settled,
        ha.infer] at hs ⊢
      have hst := Frame.stores_of_assign hf
      obtain ⟨Γ, hkeys, hc⟩ := ih (hst.keeps.trans hF) P hs
      refine ⟨Γ, by simp [hkeys], fun Δ hΔ _ => ?_⟩
      exact (hc Δ hΔ (by simp)).append ((Code.Leads.pass .dup _ ⟨rfl, rfl⟩ rfl).append
        (Code.Leads.store τ _ (hF.slot x slot hst.slot)))
  | @compare n l r k τ t s s₁ s₂ ts₁ ts₂ c₁ c₂ hl hr ih₁ ih₂ =>
      simp only [Expr.flow, ExprPosition.exit, Outcomes.same_yes, Outcomes.same_no,
        Outcomes.same_settled, Bool.and_eq_true, hl.infer] at hs ⊢
      obtain ⟨Γ₁, hkeys₁, hc₁⟩ := ih₁ (hr.frameGrows.keeps.trans hF) P hs.1
      obtain ⟨Γ₂, hkeys₂, hc₂⟩ := ih₂ hF _ hs.2
      refine ⟨Γ₁ ++ Γ₂, by simp [hkeys₁, hkeys₂], fun Δ hΔ ht => ?_⟩
      obtain ⟨hΔ₁, hΔ₂⟩ := (Code.agrees_append Δ Γ₁ Γ₂).mp hΔ
      exact ((hc₁ Δ hΔ₁ (by simp)).append (hc₂ Δ hΔ₂ (by simp))).append
        (Code.Leads.compare τ (ht t (by simp)))
  | @and n l r t s s₁ s₂ ts₁ ts₂ c₁ c₂ hl hr ih₁ ih₂ =>
      simp only [Expr.flow, ExprPosition.exit, Bool.and_eq_true, hl.infer] at hs ⊢
      obtain ⟨Γ₁, hkeys₁, hc₁⟩ := ih₁ (hr.frameGrows.keeps.trans hF) P hs.1
      obtain ⟨Γ₂, hkeys₂, hc₂⟩ := ih₂ hF _ hs.2
      refine ⟨Γ₁ ++ Γ₂, by simp [hkeys₁, hkeys₂], fun Δ hΔ ht => ?_⟩
      obtain ⟨hΔ₁, hΔ₂⟩ := (Code.agrees_append Δ Γ₁ Γ₂).mp hΔ
      have hleft := hc₁ Δ hΔ₁ fun t' ht' =>
        (Reaching.within_join_left _ _).trans (ht t' ht')
      have hright := hc₂ Δ hΔ₂ fun t' ht' =>
        (Reaching.within_join_right _ _).trans (ht t' ht')
      exact (hleft.append hright).weaken (by simp)
  | @or n l r t s s₁ s₂ ts₁ ts₂ c₁ c₂ hl hr ih₁ ih₂ =>
      have hinfer := hl.infer_next
      rw [Scope.next_frame] at ih₁
      simp only [Expr.flow, ExprPosition.exit, Bool.and_eq_true, hinfer] at hs ⊢
      obtain ⟨Γ₁, hkeys₁, hc₁⟩ := ih₁ (hr.frameGrows.keeps.trans hF) P hs.1
      obtain ⟨Γ₂, hkeys₂, hc₂⟩ := ih₂ hF _ hs.2
      refine ⟨Γ₁ ++ [(.numbered "OR_RHS" s.group, (l.flow s.frame.type? P).no)] ++ Γ₂ ++
          [(.numbered "OR_TRUE" s.group, (l.flow s.frame.type? P).yes.join
            (r.flow s₁.frame.type? (l.flow s.frame.type? P).no).yes)],
        by simp [hkeys₁, hkeys₂], fun Δ hΔ ht => ?_⟩
      simp only [Code.agrees_append, Code.agrees_cons, Code.agrees_nil, and_true] at hΔ
      obtain ⟨⟨⟨hΔ₁, hrhs⟩, hΔ₂⟩, htrue⟩ := hΔ
      have hleft := hc₁ Δ hΔ₁ (by simp [hrhs, Reaching.Within.refl])
      have hturn := Code.Leads.turn hleft (by simp) htrue (Reaching.within_join_left _ _) hrhs
      have hright := hturn.append (hc₂ Δ hΔ₂ ht)
      exact (hright.append (Code.Leads.fall htrue (Reaching.within_join_right _ _))).weaken
        (by simp)
  | groupingTest _ ih => exact ih hF P hs
  | @branch e t s s' ts c hp _ ih =>
      obtain ⟨Γ, hkeys, hc⟩ := ih hF P hs
      refine ⟨Γ, by simp [hkeys], fun Δ hΔ ht => ?_⟩
      have hsame := Expr.flow_of_isPlain hp s.frame.type? P
      have hvalue := hc Δ hΔ (by simp)
      have hno := ht t (by simp)
      simp only [ExprPosition.exit] at hvalue ⊢
      rw [hsame.1] at hvalue
      rw [hsame.2] at hno
      exact hvalue.append (.branch rfl rfl rfl hno)

/-- **The code of a statement whose loads are settled is certified.** -/
theorem StmtCode.leads {st : Stmt} {s s' : Scope} {ts : List (Nat × ValueType)} {c : List Item}
    {F : Frame} (h : StmtCode st s s' ts c) (hF : s'.frame.Keeps F) (P : Reaching)
    (hs : (st.flow s.frame.type? P).2 = true) :
    ∃ Γ : List (Label × Reaching), Γ.map Prod.fst = Code.labels c ∧
      ∀ Δ, Code.Agrees Δ Γ → Code.Leads F Δ [] c P (st.flow s.frame.type? P).1 := by
  induction h generalizing P with
  | @declare sp x e τ slot s s₁ f ts c he hf =>
      simp only [Stmt.flow, he.infer] at hs ⊢
      have hst := Frame.stores_of_define hf
      obtain ⟨Γ, hkeys, hc⟩ := he.leads (hst.keeps.trans hF) P hs
      refine ⟨Γ, by simp [hkeys], fun Δ hΔ => ?_⟩
      exact (hc Δ hΔ (by simp)).append (Code.Leads.store τ _ (hF.slot x slot hst.slot))
  | @print sp e τ s s' ts c he =>
      simp only [Stmt.flow] at hs ⊢
      obtain ⟨Γ, hkeys, hc⟩ := he.leads hF P hs
      refine ⟨Γ, by simp [hkeys], fun Δ hΔ => ?_⟩
      exact ((Code.Leads.pass Gen.systemOut P ⟨rfl, rfl⟩ rfl).append (hc Δ hΔ (by simp))).append
        (Code.Leads.pass (.invokeVirtual (Gen.println τ)) _ ⟨rfl, rfl⟩ rfl)
  | @read sp x scanner slot s f f' _ hf =>
      refine ⟨[], rfl, fun Δ _ => ?_⟩
      simp only [Stmt.flow]
      exact (Code.Leads.pass (.loadRef scanner) P ⟨rfl, rfl⟩ rfl).append
        ((Code.Leads.pass (.invokeVirtual Gen.nextLine) P ⟨rfl, rfl⟩ rfl).append
          (Code.Leads.store .string P (hF.slot x slot (Frame.stores_of_assign hf).slot)))
  | @ifThen sp e yes s s₁ s₂ ts₁ ts₂ c₁ c₂ he hyes ih =>
      have hinfer := he.infer_next
      simp only [Stmt.flow, Bool.and_eq_true, hinfer] at hs ⊢
      obtain ⟨Γ₁, hkeys₁, hc₁⟩ := he.leads (hyes.frameGrows.keeps.trans hF) P hs.1
      obtain ⟨Γ₂, hkeys₂, hc₂⟩ := ih hF _ hs.2
      rw [Scope.next_frame] at hc₁
      refine ⟨Γ₁ ++ [(.numbered "THEN" s.group, (e.flow s.frame.type? P).yes)] ++ Γ₂ ++
          [(.numbered "END" s.group, (yes.flow s₁.frame.type? (e.flow s.frame.type? P).yes).1.join
            (e.flow s.frame.type? P).no)],
        by simp [hkeys₁, hkeys₂], fun Δ hΔ => ?_⟩
      simp only [Code.agrees_append, Code.agrees_cons, Code.agrees_nil, and_true] at hΔ
      obtain ⟨⟨⟨hΔ₁, hthen⟩, hΔ₂⟩, hend⟩ := hΔ
      have htest := hc₁ Δ hΔ₁ (by simp [hend, Reaching.within_join_right])
      have hfirst := (htest.append (Code.Leads.fall hthen (.refl _))).append (hc₂ Δ hΔ₂)
      exact (hfirst.append (Code.Leads.fall hend (Reaching.within_join_left _ _))).weaken (by simp)
  | @ifElse sp e yes no s s₁ s₂ s₃ ts₁ ts₂ ts₃ c₁ c₂ c₃ he hyes hno ih₁ ih₂ =>
      have hinfer := he.infer_next
      simp only [Stmt.flow, Bool.and_eq_true, hinfer, hyes.infer] at hs ⊢
      have hF₂ := hno.frameGrows.keeps.trans hF
      obtain ⟨Γ₁, hkeys₁, hc₁⟩ := he.leads (hyes.frameGrows.keeps.trans hF₂) P hs.1.1
      obtain ⟨Γ₂, hkeys₂, hc₂⟩ := ih₁ hF₂ _ hs.1.2
      obtain ⟨Γ₃, hkeys₃, hc₃⟩ := ih₂ hF _ hs.2
      rw [Scope.next_frame] at hc₁
      refine ⟨Γ₁ ++ [(.numbered "THEN" s.group, (e.flow s.frame.type? P).yes)] ++ Γ₂ ++
          [(.numbered "ELSE" s.group, (e.flow s.frame.type? P).no)] ++ Γ₃ ++
          [(.numbered "END" s.group, (yes.flow s₁.frame.type? (e.flow s.frame.type? P).yes).1.join
            (no.flow s₂.frame.type? (e.flow s.frame.type? P).no).1)],
        by simp [hkeys₁, hkeys₂, hkeys₃], fun Δ hΔ => ?_⟩
      simp only [Code.agrees_append, Code.agrees_cons, Code.agrees_nil, and_true] at hΔ
      obtain ⟨⟨⟨⟨⟨hΔ₁, hthen⟩, hΔ₂⟩, helse⟩, hΔ₃⟩, hend⟩ := hΔ
      have htest := hc₁ Δ hΔ₁ (by simp [helse, Reaching.Within.refl])
      have hfirst := (htest.append (Code.Leads.fall hthen (.refl _))).append (hc₂ Δ hΔ₂)
      have hturn := Code.Leads.turn hfirst (by simp) hend (Reaching.within_join_left _ _) helse
      have hsecond := hturn.append (hc₃ Δ hΔ₃)
      exact (hsecond.append (Code.Leads.fall hend (Reaching.within_join_right _ _))).weaken
        (by simp)
  | @whileDo sp e body s s₁ s₂ ts₁ ts₂ c₁ c₂ he hbody ih =>
      have hinfer := he.infer_next
      rw [Stmt.flow_whileDo, hinfer] at hs ⊢
      -- the invariant of the loop is what its head is entered with
      have hround := Stmt.round_within s.frame.type? e body P
      unfold Stmt.round at hround
      rw [hinfer] at hround
      generalize hhead : Stmt.loopHead s.frame.type? e body P = head at hs hround ⊢
      have hentry : P.Within head := hhead ▸ Reaching.within_join_left P _
      rw [Bool.and_eq_true] at hs
      obtain ⟨Γ₁, hkeys₁, hc₁⟩ := he.leads (hbody.frameGrows.keeps.trans hF) head hs.1
      obtain ⟨Γ₂, hkeys₂, hc₂⟩ := ih hF _ hs.2
      rw [Scope.next_frame] at hc₁
      refine ⟨[(.numbered "LOOP_START" s.group, head)] ++ Γ₁ ++ Γ₂ ++
          [(.numbered "LOOP_END" s.group, (e.flow s.frame.type? head).no)],
        by simp [hkeys₁, hkeys₂], fun Δ hΔ => ?_⟩
      simp only [Code.agrees_append, Code.agrees_cons, Code.agrees_nil, and_true] at hΔ
      obtain ⟨⟨⟨hstart, hΔ₁⟩, hΔ₂⟩, hend⟩ := hΔ
      have htest := hc₁ Δ hΔ₁ (by simp [hend, Reaching.Within.refl])
      have hloop := ((Code.Leads.fall hstart hentry).append htest).append (hc₂ Δ hΔ₂)
      exact (Code.Leads.turn hloop (by simp) hstart hround hend).weaken (by simp)
  | nil =>
      simp only [Stmt.flow, Stmt.flowAll]
      exact ⟨[], rfl, fun Δ _ => Code.Carries.nil P⟩
  | @cons sp st sts s s₁ s₂ ts₁ ts₂ c₁ c₂ h₁ h₂ ih₁ ih₂ =>
      simp only [Stmt.flow, Stmt.flowAll, Bool.and_eq_true, h₁.infer] at hs ih₂ ⊢
      obtain ⟨Γ₁, hkeys₁, hc₁⟩ := ih₁ (h₂.frameGrows.keeps.trans hF) P hs.1
      obtain ⟨Γ₂, hkeys₂, hc₂⟩ := ih₂ hF _ hs.2
      refine ⟨Γ₁ ++ Γ₂, by simp [hkeys₁, hkeys₂], fun Δ hΔ => ?_⟩
      obtain ⟨hΔ₁, hΔ₂⟩ := (Code.agrees_append Δ Γ₁ Γ₂).mp hΔ
      exact (hc₁ Δ hΔ₁).append (hc₂ Δ hΔ₂)
  | @store sp n x a τ slot s s₁ f ts c ha hf =>
      simp only [Stmt.flow, Expr.flow, Outcomes.same_both, Outcomes.same_settled,
        ha.infer] at hs ⊢
      have hst := Frame.stores_of_assign hf
      obtain ⟨Γ, hkeys, hc⟩ := ha.leads (hst.keeps.trans hF) P hs
      refine ⟨Γ, by simp [hkeys], fun Δ hΔ => ?_⟩
      exact (hc Δ hΔ (by simp)).append (Code.Leads.store τ _ (hF.slot x slot hst.slot))
  | drop _ he =>
      simp only [Stmt.flow] at hs ⊢
      obtain ⟨Γ, hkeys, hc⟩ := he.leads hF P hs
      refine ⟨Γ, by simp [hkeys], fun Δ hΔ => ?_⟩
      exact (hc Δ hΔ (by simp)).append (Code.Leads.pass .pop _ ⟨rfl, rfl⟩ rfl)

/-! ## What is computed is reached -/

namespace Code

/-- A path leads to position `i`, and for each store in `P` one on which it is the last. -/
structure Realised (F : Frame) (items : List Item) (P : Reaching) (i : Nat) : Prop where
  reached : ∃ h, Path items h i
  stores : ∀ x k r, F.slot? x = some k → P x r = true → ∃ h, Path items h i ∧ lastStore k h = r

namespace Realised

variable {F : Frame} {items : List Item} {P Q : Reaching} {i j : Nat}

theorem join (hP : Realised F items P i) (hQ : Realised F items Q i) :
    Realised F items (P.join Q) i := by
  refine ⟨hP.reached, fun x k r hk hr => ?_⟩
  rcases Bool.or_eq_true_iff.mp hr with h | h
  · exact hP.stores x k r hk h
  · exact hQ.stores x k r hk h

theorem label {l : Label} (hP : Realised F items P i) (hi : items[i]? = some (.label l)) :
    Realised F items P (i + 1) := by
  obtain ⟨h, hpath⟩ := hP.reached
  refine ⟨⟨h, hpath.label hi⟩, fun x k r hk hr => ?_⟩
  obtain ⟨h, hpath, hlast⟩ := hP.stores x k r hk hr
  exact ⟨h, hpath.label hi, hlast⟩

/-- An instruction that stores nothing is passed with the same last stores. -/
theorem pass {n : Instr} (hP : Realised F items P i) (hi : items[i]? = some (.op n))
    (hn : n.isStore = false) (hend : n.endsFlow = false) : Realised F items P (i + 1) := by
  obtain ⟨h, hpath⟩ := hP.reached
  refine ⟨⟨n :: h, hpath.fall hi hend⟩, fun x k r hk hr => ?_⟩
  obtain ⟨h, hpath, hlast⟩ := hP.stores x k r hk hr
  exact ⟨n :: h, hpath.fall hi hend, by rw [lastStore_of_not_isStore hn, hlast]⟩

theorem jump {n : Instr} {l : Label} (hP : Realised F items P i) (hi : items[i]? = some (.op n))
    (hn : n.isStore = false) (hl : n.target? = some l) (hj : items[j]? = some (.label l)) :
    Realised F items P j := by
  obtain ⟨h, hpath⟩ := hP.reached
  refine ⟨⟨n :: h, hpath.jump hi hl hj⟩, fun x k r hk hr => ?_⟩
  obtain ⟨h, hpath, hlast⟩ := hP.stores x k r hk hr
  exact ⟨n :: h, hpath.jump hi hl hj, by rw [lastStore_of_not_isStore hn, hlast]⟩

theorem store {x : String} {k : Nat} {τ : ValueType} (hF : F.WellFormed)
    (hP : Realised F items P i) (hi : items[i]? = some (.op (.store τ k)))
    (hx : F.slot? x = some k) : Realised F items (P.store x τ) (i + 1) := by
  obtain ⟨h, hpath⟩ := hP.reached
  refine ⟨⟨_ :: h, hpath.fall hi rfl⟩, fun y j r hy hr => ?_⟩
  by_cases hyx : y = x
  · subst hyx
    have hj : k = j := Option.some.inj (hx.symm.trans hy)
    have hτ : r = some τ := by simpa [Reaching.store] using hr
    refine ⟨_ :: h, hpath.fall hi rfl, ?_⟩
    rw [lastStore_store, if_pos hj, hτ]
  · have hj : k ≠ j := by
      rintro rfl
      exact hyx (hF.inj y x k hy hx)
    rw [Reaching.store, Function.update_of_ne hyx] at hr
    obtain ⟨h, hpath, hlast⟩ := hP.stores y j r hy hr
    refine ⟨_ :: h, hpath.fall hi rfl, ?_⟩
    rw [lastStore_store, if_neg hj, hlast]

/-- A safe load is settled. -/
theorem only {x : String} {k : Nat} {τ : ValueType} (hsafe : LoadsSafe items)
    (hP : Realised F items P i) (hi : items[i]? = some (.op (.load τ k)))
    (hx : F.slot? x = some k) : P.only x (some τ) = true := by
  refine Reaching.only_iff.mpr fun r hr => ?_
  obtain ⟨h, hpath, hlast⟩ := hP.stores x k r hx hr
  rw [← hlast]
  exact hsafe h i τ k hpath hi

theorem compare {k : Comparison} {t : Label} {τ : ValueType} (hP : Realised F items P i)
    (hi : At items i (k.branch t τ)) :
    Realised F items P (i + (k.branch t τ).length) ∧
      ∀ j, items[j]? = some (.label t) → Realised F items P j := by
  cases τ with
  | numeric =>
      obtain ⟨hcmp, hbr, _⟩ := hi
      have hmid := hP.pass hcmp (Gen.isStore_floatCompare k).1 (by cases k <;> rfl)
      exact ⟨hmid.pass hbr rfl rfl, fun j hj => hmid.jump hbr rfl rfl hj⟩
  | string =>
      obtain ⟨hcmp, hbr, _⟩ := hi
      have hmid := hP.pass hcmp rfl rfl
      exact ⟨hmid.pass hbr rfl rfl, fun j hj => hmid.jump hbr rfl rfl hj⟩
  | bool =>
      obtain ⟨hbr, _⟩ := hi
      exact ⟨hP.pass hbr rfl rfl, fun j hj => hP.jump hbr rfl rfl hj⟩

end Realised

end Code

section

variable {F : Frame} {items : List Item}

/--
**In safe code, the loads of an expression are settled**, and what was computed for its
outcomes reaches its end and the place it jumps to.
-/
theorem ExprCode.realised {e : Expr} {pos : ExprPosition} {s s' : Scope}
    {ts : List (Nat × ValueType)} {c : List Item} (h : ExprCode e pos s s' ts c)
    (hF : F.WellFormed) (hkeeps : s'.frame.Keeps F) (hsafe : Code.LoadsSafe items)
    {P : Reaching} {i : Nat} (hat : Code.At items i c) (hP : Code.Realised F items P i) :
    (e.flow s.frame.type? P).settled = true ∧
    Code.Realised F items (pos.exit (e.flow s.frame.type? P)) (i + c.length) ∧
    ∀ t ∈ pos.outer, ∀ j, items[j]? = some (.label t) →
      Code.Realised F items (e.flow s.frame.type? P).no j := by
  induction h generalizing P i with
  | literal hv =>
      simp only [Expr.flow, ExprPosition.exit, Outcomes.same_both, Outcomes.same_settled]
      exact ⟨trivial, hP.pass hat.1 (Literal.isStore_push hv).1
        (Instr.endsFlow_of_target? (Literal.target?_push hv)), by simp⟩
  | @var n x v s hx =>
      simp only [Expr.flow, ExprPosition.exit, Outcomes.same_both, Outcomes.same_settled]
      obtain ⟨htype, hslot⟩ := Frame.table_eq_some.mp hx
      rw [htype]
      exact ⟨hP.only hsafe hat.1 (hkeeps.slot x _ hslot), hP.pass hat.1 rfl rfl, by simp⟩
  | not _ ih =>
      simp only [Expr.flow, ExprPosition.exit, Outcomes.same_both, Outcomes.same_settled]
      obtain ⟨ha, hone, hxor, _⟩ := (Code.at_append ..).mp hat
      obtain ⟨hs, hend, _⟩ := ih hkeeps ha hP
      rw [List.length_append, ← Nat.add_assoc]
      exact ⟨hs, (hend.pass hone rfl rfl).pass hxor rfl rfl, by simp⟩
  | neg _ ih =>
      simp only [Expr.flow, ExprPosition.exit, Outcomes.same_both, Outcomes.same_settled]
      obtain ⟨ha, hneg, _⟩ := (Code.at_append ..).mp hat
      obtain ⟨hs, hend, _⟩ := ih hkeeps ha hP
      rw [List.length_append, ← Nat.add_assoc]
      exact ⟨hs, hend.pass hneg rfl rfl, by simp⟩
  | @arith n l r op τ k s s₁ s₂ ts₁ ts₂ c₁ c₂ hl hr hk ih₁ ih₂ =>
      simp only [Expr.flow, ExprPosition.exit, Outcomes.same_both, Outcomes.same_settled, hl.infer,
        Bool.and_eq_true]
      simp only [Code.at_append, List.length_append, ← Nat.add_assoc] at hat ⊢
      obtain ⟨⟨hleft, hright⟩, hop, _⟩ := hat
      obtain ⟨hs₁, hend₁, _⟩ := ih₁ (hr.frameGrows.keeps.trans hkeeps) hleft hP
      obtain ⟨hs₂, hend₂, _⟩ := ih₂ hkeeps hright hend₁
      exact ⟨⟨hs₁, hs₂⟩, hend₂.pass hop (Gen.isStore_arithInstr hk).1
        (Instr.endsFlow_of_target? (Gen.target?_arithInstr hk)), by simp⟩
  | materialize _ _ ih =>
      rw [Scope.next_frame] at ih
      obtain ⟨ha, hone, hgoto, hfalse, hzero, hend, _⟩ := (Code.at_append ..).mp hat
      obtain ⟨hs, hyes, hno⟩ := ih hkeeps ha hP
      -- both ways arrive in front of the last label
      have htrue := (hyes.pass hone rfl rfl).jump hgoto rfl rfl hend
      have hother := ((hno _ (by simp) _ hfalse).label hfalse).pass hzero rfl rfl
      rw [List.length_append, ← Nat.add_assoc]
      exact ⟨hs, (htrue.join hother).label hend, by simp⟩
  | grouping _ ih => exact ih hkeeps hat hP
  | @assign n x a τ slot s s₁ f ts c ha hf ih =>
      simp only [Expr.flow, ExprPosition.exit, Outcomes.same_both, Outcomes.same_settled, ha.infer]
      have hst := Frame.stores_of_assign hf
      obtain ⟨hcode, hdup, hstore, _⟩ := (Code.at_append ..).mp hat
      obtain ⟨hs, hend, _⟩ := ih (hst.keeps.trans hkeeps) hcode hP
      rw [List.length_append, ← Nat.add_assoc]
      exact ⟨hs, (hend.pass hdup rfl rfl).store hF hstore (hkeeps.slot x slot hst.slot), by simp⟩
  | @compare n l r k τ t s s₁ s₂ ts₁ ts₂ c₁ c₂ hl hr ih₁ ih₂ =>
      simp only [Expr.flow, ExprPosition.exit, Outcomes.same_yes, Outcomes.same_no,
        Outcomes.same_settled, hl.infer, Bool.and_eq_true]
      simp only [Code.at_append, List.length_append, ← Nat.add_assoc] at hat ⊢
      obtain ⟨⟨hleft, hright⟩, hbr⟩ := hat
      obtain ⟨hs₁, hend₁, _⟩ := ih₁ (hr.frameGrows.keeps.trans hkeeps) hleft hP
      obtain ⟨hs₂, hend₂, _⟩ := ih₂ hkeeps hright hend₁
      obtain ⟨hfall, hjump⟩ := hend₂.compare hbr
      refine ⟨⟨hs₁, hs₂⟩, hfall, fun t' ht' => ?_⟩
      rw [List.mem_singleton.mp ht']
      exact hjump
  | @and n l r t s s₁ s₂ ts₁ ts₂ c₁ c₂ hl hr ih₁ ih₂ =>
      simp only [Expr.flow, ExprPosition.exit, hl.infer, Bool.and_eq_true]
      obtain ⟨hleft, hright⟩ := (Code.at_append ..).mp hat
      obtain ⟨hs₁, hyes₁, hno₁⟩ := ih₁ (hr.frameGrows.keeps.trans hkeeps) hleft hP
      obtain ⟨hs₂, hyes₂, hno₂⟩ := ih₂ hkeeps hright hyes₁
      rw [List.length_append, ← Nat.add_assoc]
      exact ⟨⟨hs₁, hs₂⟩, hyes₂, fun t' ht' j hj => (hno₁ t' ht' j hj).join (hno₂ t' ht' j hj)⟩
  | @or n l r t s s₁ s₂ ts₁ ts₂ c₁ c₂ hl hr ih₁ ih₂ =>
      have hinfer := hl.infer_next
      rw [Scope.next_frame] at ih₁
      simp only [Expr.flow, ExprPosition.exit, hinfer, Bool.and_eq_true]
      simp only [Code.at_append, Code.at_cons, List.length_append, List.length_cons,
        List.length_nil, Nat.zero_add, ← Nat.add_assoc] at hat ⊢
      obtain ⟨⟨⟨hleft, hgoto, hsecond, _⟩, hright⟩, hyes, _⟩ := hat
      obtain ⟨hs₁, hyes₁, hno₁⟩ := ih₁ (hr.frameGrows.keeps.trans hkeeps) hleft hP
      obtain ⟨hs₂, hyes₂, hno₂⟩ := ih₂ hkeeps hright ((hno₁ _ (by simp) _ hsecond).label hsecond)
      have hfirst := hyes₁.jump hgoto rfl rfl hyes
      exact ⟨⟨hs₁, hs₂⟩, (hfirst.join hyes₂).label hyes, hno₂⟩
  | groupingTest _ ih => exact ih hkeeps hat hP
  | @branch e t s s' ts c hp _ ih =>
      obtain ⟨ha, hbr, _⟩ := (Code.at_append ..).mp hat
      obtain ⟨hs, hend, _⟩ := ih hkeeps ha hP
      have hsame := Expr.flow_of_isPlain hp s.frame.type? P
      simp only [ExprPosition.exit] at hend ⊢
      rw [hsame.1] at hend
      rw [hsame.2, List.length_append, ← Nat.add_assoc]
      refine ⟨hs, hend.pass hbr rfl rfl, fun t' ht' j hj => ?_⟩
      rw [List.mem_singleton.mp ht'] at hj
      exact hend.jump hbr rfl rfl hj

/-- **In safe code, the loads of a statement are settled.** -/
theorem StmtCode.realised {st : Stmt} {s s' : Scope} {ts : List (Nat × ValueType)} {c : List Item}
    (h : StmtCode st s s' ts c) (hF : F.WellFormed) (hkeeps : s'.frame.Keeps F)
    (hsafe : Code.LoadsSafe items) {P : Reaching} {i : Nat} (hat : Code.At items i c)
    (hP : Code.Realised F items P i) :
    (st.flow s.frame.type? P).2 = true ∧
    Code.Realised F items (st.flow s.frame.type? P).1 (i + c.length) := by
  induction h generalizing P i with
  | @declare sp x e τ slot s s₁ f ts c he hf =>
      simp only [Stmt.flow, he.infer]
      have hst := Frame.stores_of_define hf
      obtain ⟨hcode, hstore, _⟩ := (Code.at_append ..).mp hat
      obtain ⟨hs, hend, _⟩ := he.realised hF (hst.keeps.trans hkeeps) hsafe hcode hP
      rw [List.length_append, ← Nat.add_assoc]
      exact ⟨hs, hend.store hF hstore (hkeeps.slot x slot hst.slot)⟩
  | print he =>
      simp only [Stmt.flow]
      simp only [Code.at_append, Code.at_cons, List.length_append, List.length_cons,
        List.length_nil, Nat.zero_add, ← Nat.add_assoc] at hat ⊢
      obtain ⟨⟨⟨hout, _⟩, hcode⟩, hcall, _⟩ := hat
      obtain ⟨hs, hend, _⟩ := he.realised hF hkeeps hsafe hcode (hP.pass hout rfl rfl)
      exact ⟨hs, hend.pass hcall rfl rfl⟩
  | @read sp x scanner slot s f f' _ hf =>
      simp only [Stmt.flow]
      obtain ⟨hload, hline, hstore, _⟩ := hat
      exact ⟨trivial, ((hP.pass hload rfl rfl).pass hline rfl rfl).store hF hstore
        (hkeeps.slot x slot (Frame.stores_of_assign hf).slot)⟩
  | @ifThen sp e yes s s₁ s₂ ts₁ ts₂ c₁ c₂ he hyes ih =>
      have hinfer := he.infer_next
      simp only [Stmt.flow, hinfer, Bool.and_eq_true]
      simp only [Code.at_append, Code.at_cons, List.length_append, List.length_cons,
        List.length_nil, Nat.zero_add, ← Nat.add_assoc] at hat ⊢
      obtain ⟨⟨⟨htest, hthen, _⟩, hbody⟩, hend, _⟩ := hat
      obtain ⟨hs₁, htrue, hfalse⟩ :=
        he.realised hF (hyes.frameGrows.keeps.trans hkeeps) hsafe htest hP
      obtain ⟨hs₂, hlast⟩ := ih hkeeps hbody (htrue.label hthen)
      exact ⟨⟨hs₁, hs₂⟩, (hlast.join (hfalse _ (by simp) _ hend)).label hend⟩
  | @ifElse sp e yes no s s₁ s₂ s₃ ts₁ ts₂ ts₃ c₁ c₂ c₃ he hyes hno ih₁ ih₂ =>
      have hinfer := he.infer_next
      simp only [Stmt.flow, hinfer, hyes.infer, Bool.and_eq_true]
      simp only [Code.at_append, Code.at_cons, List.length_append, List.length_cons,
        List.length_nil, Nat.zero_add, ← Nat.add_assoc] at hat ⊢
      obtain ⟨⟨⟨⟨⟨htest, hthen, _⟩, hfirst⟩, hgoto, helse, _⟩, hsecond⟩, hend, _⟩ := hat
      have hkeeps₂ := hno.frameGrows.keeps.trans hkeeps
      obtain ⟨hs₁, htrue, hfalse⟩ :=
        he.realised hF (hyes.frameGrows.keeps.trans hkeeps₂) hsafe htest hP
      obtain ⟨hs₂, hlast₁⟩ := ih₁ hkeeps₂ hfirst (htrue.label hthen)
      obtain ⟨hs₃, hlast₂⟩ := ih₂ hkeeps hsecond ((hfalse _ (by simp) _ helse).label helse)
      exact ⟨⟨⟨hs₁, hs₂⟩, hs₃⟩, ((hlast₁.jump hgoto rfl rfl hend).join hlast₂).label hend⟩
  | @whileDo sp e body s s₁ s₂ ts₁ ts₂ c₁ c₂ he hbody ih =>
      have hinfer := he.infer_next
      rw [Stmt.flow_whileDo, hinfer]
      simp only [Code.at_append, Code.at_cons, List.length_append, List.length_cons,
        List.length_nil, Nat.zero_add, ← Nat.add_assoc] at hat ⊢
      obtain ⟨⟨⟨⟨hstart, _⟩, htest⟩, hcode⟩, hgoto, hend, _⟩ := hat
      have hkeeps₁ := hbody.frameGrows.keeps.trans hkeeps
      -- one round from what enters the loop reaches its head again
      obtain ⟨_, htrue, _⟩ := he.realised hF hkeeps₁ hsafe htest (hP.label hstart)
      obtain ⟨_, hround⟩ := ih hkeeps hcode htrue
      have hhead : Code.Realised F items (Stmt.loopHead s.frame.type? e body P) i := by
        unfold Stmt.loopHead Stmt.round
        rw [hinfer]
        exact hP.join (hround.jump hgoto rfl rfl hstart)
      obtain ⟨hs₁, htrue, hfalse⟩ := he.realised hF hkeeps₁ hsafe htest (hhead.label hstart)
      obtain ⟨hs₂, _⟩ := ih hkeeps hcode htrue
      exact ⟨Bool.and_eq_true_iff.mpr ⟨hs₁, hs₂⟩, (hfalse _ (by simp) _ hend).label hend⟩
  | nil =>
      simp only [Stmt.flow, Stmt.flowAll]
      exact ⟨trivial, hP⟩
  | @cons sp st sts s s₁ s₂ ts₁ ts₂ c₁ c₂ h₁ h₂ ih₁ ih₂ =>
      simp only [Stmt.flow] at ih₂
      simp only [Stmt.flow, Stmt.flowAll, h₁.infer, Bool.and_eq_true]
      obtain ⟨hfirst, hrest⟩ := (Code.at_append ..).mp hat
      obtain ⟨hs₁, hend₁⟩ := ih₁ (h₂.frameGrows.keeps.trans hkeeps) hfirst hP
      obtain ⟨hs₂, hend₂⟩ := ih₂ hkeeps hrest hend₁
      rw [List.length_append, ← Nat.add_assoc]
      exact ⟨⟨hs₁, hs₂⟩, hend₂⟩
  | @store sp n x a τ slot s s₁ f ts c ha hf =>
      simp only [Stmt.flow, Expr.flow, Outcomes.same_both, Outcomes.same_settled, ha.infer]
      have hst := Frame.stores_of_assign hf
      obtain ⟨hcode, hstore, _⟩ := (Code.at_append ..).mp hat
      obtain ⟨hs, hend, _⟩ := ha.realised hF (hst.keeps.trans hkeeps) hsafe hcode hP
      rw [List.length_append, ← Nat.add_assoc]
      exact ⟨hs, hend.store hF hstore (hkeeps.slot x slot hst.slot)⟩
  | drop _ he =>
      simp only [Stmt.flow]
      obtain ⟨hcode, hpop, _⟩ := (Code.at_append ..).mp hat
      obtain ⟨hs, hend, _⟩ := he.realised hF hkeeps hsafe hcode hP
      rw [List.length_append, ← Nat.add_assoc]
      exact ⟨hs, hend.pass hpop rfl rfl⟩

end

/-! ## Finished code -/

theorem Code.Leads.inert {F : Frame} {Δ : Label → Reaching} {c : List Item} (hc : Code.Inert c)
    (P : Reaching) : Code.Leads F Δ [] c P P := by
  induction c with
  | nil => exact .nil P
  | cons x c ih =>
      obtain ⟨i, rfl, hi, ht⟩ := hc x List.mem_cons_self
      exact (Code.Leads.pass i P hi ht).append (ih fun y hy => hc y (List.mem_cons_of_mem _ hy))

theorem Code.Realised.inert {F : Frame} {items c : List Item} {P : Reaching} {i : Nat}
    (hP : Code.Realised F items P i) (hc : Code.Inert c) (hat : Code.At items i c) :
    Code.Realised F items P (i + c.length) := by
  induction c generalizing i with
  | nil => exact hP
  | cons x c ih =>
      obtain ⟨n, rfl, hn, ht⟩ := hc x List.mem_cons_self
      have hnext := hP.pass hat.1 hn.1 (Instr.endsFlow_of_target? ht)
      have hrest := ih hnext (fun y hy => hc y (List.mem_cons_of_mem _ hy)) hat.2
      rwa [Nat.add_assoc, Nat.add_comm 1] at hrest

theorem Code.realised_start (F : Frame) (items : List Item) :
    Code.Realised F items .start 0 := by
  refine ⟨⟨[], .start⟩, fun x k r _ hr => ⟨[], .start, ?_⟩⟩
  exact (Option.isNone_iff_eq_none.mp hr).symm

theorem Program.settled_eq (p : Program) :
    p.settled = ((Stmt.block p.span p.stmts).flow Frame.empty.type? .start).2 := by
  have hempty : Frame.empty.type? = fun _ => none := by
    funext x
    simp [Frame.type?, Frame.empty]
  rw [hempty, Stmt.flow, settled]

namespace Generator

variable {g : Generator} {p : Program}

theorem loadsSafe_of_settled (h : empty.generate p = (.ok (), g)) (hs : p.settled = true) :
    Code.LoadsSafe g.finishedItems := by
  obtain ⟨ts, hcode, _⟩ := generate_code h
  rw [Program.settled_eq] at hs
  obtain ⟨Γ, hkeys, hc⟩ := hcode.leads (.refl g.frame) .start hs
  obtain ⟨Δ, hΔ⟩ := Code.exists_agrees Γ (hkeys ▸ hcode.linked.nodup)
  have hall := (Code.Leads.inert g.inert_prologue .start).append (hc Δ hΔ)
  rw [← finishedItems_eq] at hall
  obtain ⟨js, _, _, hflows⟩ := hall []
  obtain ⟨A, hcert, hstart, _⟩ := hflows.certificate Reaching.Within.refl
  exact Code.loadsSafe_of_certificate (wellFormed_of_generate h) hcert hstart

theorem settled_of_loadsSafe (h : empty.generate p = (.ok (), g))
    (hsafe : Code.LoadsSafe g.finishedItems) : p.settled = true := by
  obtain ⟨ts, hcode, _⟩ := generate_code h
  obtain ⟨hprologue, hitems⟩ := g.at_finishedItems
  have hstart := (Code.realised_start g.frame g.finishedItems).inert g.inert_prologue hprologue
  rw [Program.settled_eq]
  exact (hcode.realised (wellFormed_of_generate h) (.refl g.frame) hsafe hitems hstart).1

end Generator

/--
**Loads find the type they name.** In the order of the text they always do. On every path
that control can take they do exactly if the program is settled.
-/
theorem Program.loadsSafe_iff_settled {p : Program} {a : Assembly} (h : p.assemble = .ok a) :
    Code.LoadsInOrder [] a.items ∧ (Code.LoadsSafe a.items ↔ p.settled = true) := by
  obtain ⟨g, hgen, hfin⟩ := assemble_eq_ok.mp h
  rw [Generator.items_of_finish hfin]
  exact ⟨Generator.finished_loadsInOrder hgen, Generator.settled_of_loadsSafe hgen,
    Generator.loadsSafe_of_settled hgen⟩

theorem Program.loadsSafe_iff_settled_greeting :
    ∃ a, greeting.assemble = .ok a ∧ greeting.settled = true ∧ Code.LoadsSafe a.items := by
  obtain ⟨a, ha⟩ := greeting_assembles
  have hs : greeting.settled = true := by decide +kernel
  exact ⟨a, ha, hs, (loadsSafe_iff_settled ha).2.mpr hs⟩

/-- Prints a variable whose declaration is skipped. -/
def Program.skipped : Program where
  span := default
  stmts := [
    .ifThen default (.literal ⟨0, default⟩ (.bool false)) (.block default [
      .declare default "x" (.literal ⟨1, default⟩ (.number (.zero false)))]),
    .print default (.var ⟨2, default⟩ "x")]

/-- The code of `skipped`. -/
def Program.skippedItems : List Item :=
  [.op (.iconst 0), .op (.ifZero .eq (.numbered "END" 0)), .label (.numbered "THEN" 0),
    .op (.ldcFloat (.zero false)), .op (.store .numeric 1), .label (.numbered "END" 0),
    .op Gen.systemOut, .op (.load .numeric 1), .op (.invokeVirtual (Gen.println .numeric))]

/-- Control that skips a declaration arrives at a load with nothing stored. -/
theorem Program.skipped_not_loadsSafe :
    ∃ a h i slot, skipped.assemble = .ok a ∧ Code.Path a.items h i ∧
      a.items[i]? = some (.op (.load .numeric slot)) ∧ Code.lastStore slot h = none := by
  have hok : skipped.assemble.toOption = some ⟨skippedItems, 2, 2⟩ := by decide +kernel
  have ha : skipped.assemble = .ok ⟨skippedItems, 2, 2⟩ := by
    cases h : skipped.assemble with
    | error e => rw [h] at hok; cases hok
    | ok a => rw [h] at hok; exact congrArg Except.ok (Option.some.inj hok)
  have hpath : Code.Path skippedItems
      [Gen.systemOut, .ifZero .eq (.numbered "END" 0), .iconst 0] 7 :=
    (((Code.Path.start.fall rfl rfl).jump (j := 5) rfl rfl rfl).label rfl).fall rfl rfl
  exact ⟨_, _, 7, 1, ha, hpath, rfl, rfl⟩

end Dam
