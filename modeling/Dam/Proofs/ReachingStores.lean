import Dam.Proofs.ControlFlow
import Dam.Proofs.Slots

/-!
# Which stores reach a load

A load names the type that its variable has at that place of the program text. Control
does not follow the text: it skips branches and comes back to the head of a loop. So
another store than the last one in the text may have come last, or none at all, and
then the load reads a value of another type, or none.

`Stmt.flow` computes from the program which stores reach each load, and whether all
that do are of the type that the load names; such a program is `settled`. This is
exactly when every path through the generated code finds at each load what it names.
The stores that `flow` computes reach it on some path (`Realised`), and those that reach
it on some path are computed by `flow` (a certificate whose facts are `Reaching`).
-/

namespace Dam

/-! ## Types in the order of the text -/

/-- The types of the variables at a place of the program text. -/
abbrev TypeEnv := String → Option ValueType

/-- The type of a constant. -/
def Literal.type : Literal → ValueType
  | number _ => .numeric
  | string _ => .string
  | bool _ | null => .bool

namespace Expr

/-- The type of an expression, and the types of the variables behind it. -/
def infer (Γ : TypeEnv) : Expr → ValueType × TypeEnv
  | literal _ v => (v.type, Γ)
  | var _ x => ((Γ x).getD .bool, Γ)
  | unary _ .not a => (.bool, (a.infer Γ).2)
  | unary _ .neg a => (.numeric, (a.infer Γ).2)
  | binary _ l (.arith _) r => ((l.infer Γ).1, (r.infer (l.infer Γ).2).2)
  | binary _ l (.compare _) r => (.bool, (r.infer (l.infer Γ).2).2)
  | logical _ l _ r => (.bool, (r.infer (l.infer Γ).2).2)
  | grouping _ a => a.infer Γ
  | assign _ x a => ((a.infer Γ).1, Function.update (a.infer Γ).2 x (some (a.infer Γ).1))

end Expr

namespace Stmt

mutual

/-- The types of the variables behind a statement. -/
def infer (Γ : TypeEnv) : Stmt → TypeEnv
  | declare _ x e => Function.update (e.infer Γ).2 x (some (e.infer Γ).1)
  | print _ e => (e.infer Γ).2
  | read _ x => Function.update Γ x (some .string)
  | ifThen _ e yes => yes.infer (e.infer Γ).2
  | ifElse _ e yes no => no.infer (yes.infer (e.infer Γ).2)
  | whileDo _ e body => body.infer (e.infer Γ).2
  | block _ ss => inferAll Γ ss
  | expression _ e => (e.infer Γ).2

/-- The types of the variables behind statements. -/
def inferAll (Γ : TypeEnv) : List Stmt → TypeEnv
  | [] => Γ
  | st :: sts => inferAll (st.infer Γ) sts

end

end Stmt

/-! ## Stores that reach a place -/

/--
The stores that reach a place: whether on some path to it the last store into a variable
was of a type, or, for `none`, there was no store yet.
-/
abbrev Reaching := String → Option ValueType → Bool

namespace Reaching

/-- In front of the first statement nothing is stored. -/
def start : Reaching := fun _ r => r.isNone

/-- Behind a store. -/
def store (P : Reaching) (x : String) (τ : ValueType) : Reaching :=
  Function.update P x fun r => r == some τ

/-- Where two ways meet. -/
def join (P Q : Reaching) : Reaching := fun x r => P x r || Q x r

/-- Whether all stores into a variable are of one type. -/
def only (P : Reaching) (x : String) (type : Option ValueType) : Bool :=
  (none :: ValueType.all.map some).all fun r => !P x r || r == type

end Reaching

/-- What reaches the two outcomes of an expression, and whether its loads are settled. -/
structure Outcomes where
  yes : Reaching
  no : Reaching
  settled : Bool

namespace Outcomes

/-- The outcomes of an expression that goes on the same way for every value. -/
def same (P : Reaching) (settled : Bool) : Outcomes := ⟨P, P, settled⟩

/-- What reaches the end of the expression, whatever its value. -/
def both (o : Outcomes) : Reaching := o.yes.join o.no

end Outcomes

@[simp] theorem Outcomes.same_both (P : Reaching) (settled : Bool) :
    (Outcomes.same P settled).both = P := by
  funext x r
  exact Bool.or_self _

@[simp] theorem Outcomes.same_yes (P : Reaching) (settled : Bool) :
    (Outcomes.same P settled).yes = P := rfl

@[simp] theorem Outcomes.same_no (P : Reaching) (settled : Bool) :
    (Outcomes.same P settled).no = P := rfl

@[simp] theorem Outcomes.same_settled (P : Reaching) (settled : Bool) :
    (Outcomes.same P settled).settled = settled := rfl

/-- Follows the stores through an expression. -/
def Expr.flow (Γ : TypeEnv) (P : Reaching) : Expr → Outcomes
  | literal _ _ => .same P true
  | var _ x => .same P (P.only x (Γ x))
  | unary _ _ a => .same (a.flow Γ P).both (a.flow Γ P).settled
  | binary _ l _ r =>
    let first := l.flow Γ P
    let second := r.flow (l.infer Γ).2 first.both
    .same second.both (first.settled && second.settled)
  | logical _ l .and r =>
    let first := l.flow Γ P
    let second := r.flow (l.infer Γ).2 first.yes
    ⟨second.yes, first.no.join second.no, first.settled && second.settled⟩
  | logical _ l .or r =>
    let first := l.flow Γ P
    let second := r.flow (l.infer Γ).2 first.no
    ⟨first.yes.join second.yes, second.no, first.settled && second.settled⟩
  | grouping _ a => a.flow Γ P
  | assign _ x a => .same ((a.flow Γ P).both.store x (a.infer Γ).1) (a.flow Γ P).settled

namespace Stmt

mutual

/-- Follows the stores through a statement. A loop is entered with what its own body leaves. -/
def flow (Γ : TypeEnv) (P : Reaching) : Stmt → Reaching × Bool
  | declare _ x e => ((e.flow Γ P).both.store x (e.infer Γ).1, (e.flow Γ P).settled)
  | print _ e => ((e.flow Γ P).both, (e.flow Γ P).settled)
  | read _ x => (P.store x .string, true)
  | ifThen _ e yes =>
    let test := e.flow Γ P
    let first := yes.flow (e.infer Γ).2 test.yes
    (first.1.join test.no, test.settled && first.2)
  | ifElse _ e yes no =>
    let test := e.flow Γ P
    let first := yes.flow (e.infer Γ).2 test.yes
    let second := no.flow (yes.infer (e.infer Γ).2) test.no
    (first.1.join second.1, test.settled && first.2 && second.2)
  | whileDo _ e body =>
    let head := P.join (body.flow (e.infer Γ).2 (e.flow Γ P).yes).1
    let test := e.flow Γ head
    (test.no, test.settled && (body.flow (e.infer Γ).2 test.yes).2)
  | block _ ss => flowAll Γ P ss
  | expression _ e => ((e.flow Γ P).both, (e.flow Γ P).settled)

/-- Follows the stores through statements. -/
def flowAll (Γ : TypeEnv) (P : Reaching) : List Stmt → Reaching × Bool
  | [] => (P, true)
  | st :: sts =>
    let first := st.flow Γ P
    let rest := flowAll (st.infer Γ) first.1 sts
    (rest.1, first.2 && rest.2)

end

end Stmt

/-- Whether all stores that reach a load are of the type that the load names. -/
def Program.settled (p : Program) : Bool := (Stmt.flowAll (fun _ => none) .start p.stmts).2

/-- Where an expression has the code of a value, its outcomes are the same. -/
theorem Expr.flow_of_isPlain {e : Expr} (h : e.isPlain = true) (Γ : TypeEnv) (P : Reaching) :
    (e.flow Γ P).both = (e.flow Γ P).yes ∧ (e.flow Γ P).no = (e.flow Γ P).yes := by
  cases e with
  | literal n v => exact ⟨Outcomes.same_both _ true, rfl⟩
  | var n x => exact ⟨Outcomes.same_both _ (P.only x (Γ x)), rfl⟩
  | unary n op a => exact ⟨Outcomes.same_both _ (a.flow Γ P).settled, rfl⟩
  | binary n l op r => exact ⟨Outcomes.same_both _ ((l.flow Γ P).settled && _), rfl⟩
  | logical n l op r => cases h
  | grouping n a => cases h
  | assign n x a => exact ⟨Outcomes.same_both _ (a.flow Γ P).settled, rfl⟩

/-! ## The pass infers types in the order of the text -/

theorem Literal.type_push {v : Literal} {i : Instr} {τ : ValueType} (h : v.push? = some (i, τ)) :
    v.type = τ := by
  cases v with
  | null => cases h
  | number x => cases h; rfl
  | string s => cases h; rfl
  | bool b => cases h; rfl

theorem ExprCode.infer {e : Expr} {pos : ExprPosition} {s s' : Scope}
    {ts : List (Nat × ValueType)} {c : List Item} (h : ExprCode e pos s s' ts c) :
    e.infer s.frame.type? = (pos.type, s'.frame.type?) := by
  induction h with
  | literal hv => exact congrArg (·, _) (Literal.type_push hv)
  | @var n x v s hx =>
      have htype : s.frame.type? x = some v.type := (Frame.table_eq_some.mp hx).1
      rw [Expr.infer, htype]
      rfl
  | not _ ih => rw [Expr.infer, ih]; rfl
  | neg _ ih => rw [Expr.infer, ih]; rfl
  | arith _ _ _ ih₁ ih₂ => rw [Expr.infer, ih₁, ih₂]
  | materialize _ _ ih => exact ih
  | grouping _ ih => rw [Expr.infer, ih]
  | assign _ hf ih =>
      rw [Expr.infer, ih, (Frame.stores_of_assign hf).type]
      rfl
  | compare _ _ ih₁ ih₂ => rw [Expr.infer, ih₁, ih₂]; rfl
  | and _ _ ih₁ ih₂ => rw [Expr.infer, ih₁, ih₂]; rfl
  | or _ _ ih₁ ih₂ =>
      rw [Scope.next_frame] at ih₁
      rw [Expr.infer, ih₁, ih₂]
      rfl
  | groupingTest _ ih => rw [Expr.infer, ih]
  | branch _ _ ih => exact ih

/-- Taking a group of labels in front of an expression changes no type. -/
theorem ExprCode.infer_next {e : Expr} {pos : ExprPosition} {s s' : Scope}
    {ts : List (Nat × ValueType)} {c : List Item} (h : ExprCode e pos s.next s' ts c) :
    e.infer s.frame.type? = (pos.type, s'.frame.type?) :=
  h.infer

theorem StmtCode.infer {st : Stmt} {s s' : Scope} {ts : List (Nat × ValueType)} {c : List Item}
    (h : StmtCode st s s' ts c) : st.infer s.frame.type? = s'.frame.type? := by
  induction h with
  | declare he hf => rw [Stmt.infer, he.infer, (Frame.stores_of_define hf).type]; rfl
  | print he => rw [Stmt.infer, he.infer]
  | read hs hf =>
      rw [Stmt.infer, (Frame.stores_of_assign hf).type, (Frame.opens_of_useScanner hs).type]
  | ifThen he _ ih => rw [Stmt.infer, he.infer_next, ih]
  | ifElse he _ _ ih₁ ih₂ => rw [Stmt.infer, he.infer_next, ih₁, ih₂]
  | whileDo he _ ih => rw [Stmt.infer, he.infer_next, ih]
  | nil => rw [Stmt.infer, Stmt.inferAll]
  | cons _ _ ih₁ ih₂ =>
      rw [Stmt.infer] at ih₂
      rw [Stmt.infer, Stmt.inferAll, ih₁, ih₂]
  | store he hf =>
      rw [Stmt.infer, Expr.infer, he.infer, (Frame.stores_of_assign hf).type]
      rfl
  | drop _ he => rw [Stmt.infer, he.infer]

/-! ## A loop is entered with what it leaves -/

namespace Reaching

/-- Everything that reaches by `P` also reaches by `Q`. -/
def Within (P Q : Reaching) : Prop := ∀ x r, P x r = true → Q x r = true

theorem Within.refl (P : Reaching) : P.Within P := fun _ _ h => h

theorem Within.trans {P Q R : Reaching} (h : P.Within Q) (h' : Q.Within R) : P.Within R :=
  fun x r hP => h' x r (h x r hP)

theorem within_join_left (P Q : Reaching) : P.Within (P.join Q) := by
  intro x r h
  simp [join, h]

theorem within_join_right (P Q : Reaching) : Q.Within (P.join Q) := by
  intro x r h
  simp [join, h]

theorem only_iff {P : Reaching} {x : String} {type : Option ValueType} :
    P.only x type = true ↔ ∀ r, P x r = true → r = type := by
  have hall : ∀ r : Option ValueType, r ∈ none :: ValueType.all.map some := by
    intro r
    rcases r with _ | τ
    · simp
    · cases τ <;> simp [ValueType.all]
  unfold only
  rw [List.all_eq_true]
  constructor
  · intro h r hr
    have hmem := h r (hall r)
    rw [hr] at hmem
    simpa using hmem
  · intro h r _
    cases hr : P x r with
    | false => rfl
    | true => rw [h r hr]; simp

/--
What reaches through a phrase: a store in front of it if some way through the phrase
keeps it, and the stores that the phrase makes last.
-/
def Affine (F : Reaching → Reaching) : Prop :=
  ∀ x r, ∃ keep new : Bool, ∀ P, F P x r = (keep && P x r || new)

theorem Affine.id : Affine fun P => P := fun x r => ⟨true, false, fun P => by simp⟩

theorem Affine.comp {F G : Reaching → Reaching} (hF : Affine F) (hG : Affine G) :
    Affine fun P => F (G P) := by
  intro x r
  obtain ⟨k, n, hk⟩ := hF x r
  obtain ⟨k', n', hk'⟩ := hG x r
  refine ⟨k && k', k && n' || n, fun P => ?_⟩
  show F (G P) x r = _
  rw [hk, hk']
  cases k <;> cases n <;> simp

theorem Affine.join {F G : Reaching → Reaching} (hF : Affine F) (hG : Affine G) :
    Affine fun P => (F P).join (G P) := by
  intro x r
  obtain ⟨k, n, hk⟩ := hF x r
  obtain ⟨k', n', hk'⟩ := hG x r
  refine ⟨k || k', n || n', fun P => ?_⟩
  show (F P x r || G P x r) = _
  rw [hk, hk']
  cases k <;> cases k' <;> cases n <;> simp

theorem Affine.store (x : String) (τ : ValueType) : Affine fun P => P.store x τ := by
  intro y r
  by_cases h : y = x
  · subst h
    exact ⟨false, r == some τ, fun P => by simp [Reaching.store]⟩
  · exact ⟨true, false, fun P => by simp [Reaching.store, Function.update_of_ne h]⟩

/-- One round is enough: a second one brings nothing new to the head of a loop. -/
theorem Affine.within {F : Reaching → Reaching} (hF : Affine F) (P : Reaching) :
    (F (P.join (F P))).Within (P.join (F P)) := by
  intro x r h
  obtain ⟨k, n, hk⟩ := hF x r
  rw [hk] at h
  unfold Reaching.join at h ⊢
  rw [hk] at h ⊢
  revert h
  cases k <;> cases n <;> cases P x r <;> simp

end Reaching

open Reaching in
theorem Expr.affine_flow (e : Expr) (Γ : TypeEnv) :
    Affine (fun P => (e.flow Γ P).yes) ∧ Affine (fun P => (e.flow Γ P).no) := by
  induction e generalizing Γ with
  | literal n v => exact ⟨.id, .id⟩
  | var n x => exact ⟨.id, .id⟩
  | unary n op a ih =>
      have hboth : Affine fun P => (a.flow Γ P).both := (ih Γ).1.join (ih Γ).2
      exact ⟨hboth, hboth⟩
  | binary n l op r ih₁ ih₂ =>
      have hfirst : Affine fun P => (l.flow Γ P).both := (ih₁ Γ).1.join (ih₁ Γ).2
      have hsecond : Affine fun P => (r.flow (l.infer Γ).2 P).both :=
        (ih₂ (l.infer Γ).2).1.join (ih₂ (l.infer Γ).2).2
      exact ⟨hsecond.comp hfirst, hsecond.comp hfirst⟩
  | logical n l op r ih₁ ih₂ =>
      obtain ⟨hyes, hno⟩ := ih₁ Γ
      obtain ⟨hyes', hno'⟩ := ih₂ (l.infer Γ).2
      cases op with
      | and => exact ⟨hyes'.comp hyes, hno.join (hno'.comp hyes)⟩
      | or => exact ⟨hyes.join (hyes'.comp hno), hno'.comp hno⟩
  | grouping n a ih => exact ih Γ
  | assign n x a ih =>
      have hboth : Affine fun P => (a.flow Γ P).both := (ih Γ).1.join (ih Γ).2
      exact ⟨(Affine.store x _).comp hboth, (Affine.store x _).comp hboth⟩

open Reaching in
theorem Expr.affine_both (e : Expr) (Γ : TypeEnv) : Affine fun P => (e.flow Γ P).both :=
  (e.affine_flow Γ).1.join (e.affine_flow Γ).2

namespace Stmt

open Reaching

/-- What the body of a loop leaves, with what reaches the loop. -/
def round (Γ : TypeEnv) (e : Expr) (body : Stmt) (P : Reaching) : Reaching :=
  (body.flow (e.infer Γ).2 (e.flow Γ P).yes).1

/-- What a loop is entered with: from above, and from the end of its body. -/
def loopHead (Γ : TypeEnv) (e : Expr) (body : Stmt) (P : Reaching) : Reaching :=
  P.join (round Γ e body P)

theorem flow_whileDo (Γ : TypeEnv) (P : Reaching) (sp : Span) (e : Expr) (body : Stmt) :
    (whileDo sp e body).flow Γ P =
      ((e.flow Γ (loopHead Γ e body P)).no, (e.flow Γ (loopHead Γ e body P)).settled &&
        (body.flow (e.infer Γ).2 (e.flow Γ (loopHead Γ e body P)).yes).2) := by
  simp only [flow, loopHead, round]

mutual

theorem affine_flow : ∀ (st : Stmt) (Γ : TypeEnv), Affine fun P => (st.flow Γ P).1
  | declare _ x e, Γ => (Affine.store x _).comp (e.affine_both Γ)
  | print _ e, Γ => e.affine_both Γ
  | read _ x, _ => Affine.store x _
  | ifThen _ e yes, Γ =>
      ((affine_flow yes (e.infer Γ).2).comp (e.affine_flow Γ).1).join (e.affine_flow Γ).2
  | ifElse _ e yes no, Γ =>
      ((affine_flow yes (e.infer Γ).2).comp (e.affine_flow Γ).1).join
        ((affine_flow no (yes.infer (e.infer Γ).2)).comp (e.affine_flow Γ).2)
  | whileDo _ e body, Γ =>
      (e.affine_flow Γ).2.comp
        (Affine.id.join ((affine_flow body (e.infer Γ).2).comp (e.affine_flow Γ).1))
  | block _ ss, Γ => affine_flowAll ss Γ
  | expression _ e, Γ => e.affine_both Γ

theorem affine_flowAll : ∀ (ss : List Stmt) (Γ : TypeEnv), Affine fun P => (flowAll Γ P ss).1
  | [], _ => .id
  | st :: sts, Γ => (affine_flowAll sts (st.infer Γ)).comp (affine_flow st Γ)

end

/-- What the body of a loop leaves, the loop is entered with. -/
theorem round_within (Γ : TypeEnv) (e : Expr) (body : Stmt) (P : Reaching) :
    (round Γ e body (loopHead Γ e body P)).Within (loopHead Γ e body P) :=
  ((affine_flow body (e.infer Γ).2).comp (e.affine_flow Γ).1).within P

end Stmt

end Dam
