import Dam.Proofs.Emission
import Mathlib.Data.List.Induction
import Mathlib.Data.List.Nodup

/-!
# The types remembered for nodes

The pass remembers a type under the id of each node it goes through, some twice: a
comparison that is turned into a value is gone through as a condition first. Where the
ids of a program are distinct, all that is remembered under one id is the same type, so
what is found in the end is the type that each node was given.
-/

namespace Dam

/-! ## Ids -/

/-- The ids of the nodes of an expression. -/
def Expr.ids : Expr → List Nat
  | literal n _ | var n _ => [n.id]
  | unary n _ a | grouping n a | assign n _ a => n.id :: a.ids
  | binary n l _ r | logical n l _ r => n.id :: (l.ids ++ r.ids)

namespace Stmt

mutual

/-- The ids of the nodes of a statement. -/
def ids : Stmt → List Nat
  | declare _ _ e | print _ e | expression _ e => e.ids
  | read _ _ => []
  | ifThen _ e yes => e.ids ++ yes.ids
  | ifElse _ e yes no => e.ids ++ yes.ids ++ no.ids
  | whileDo _ e body => e.ids ++ body.ids
  | block _ ss => idsAll ss

/-- The ids of the nodes of statements. -/
def idsAll : List Stmt → List Nat
  | [] => []
  | st :: sts => st.ids ++ idsAll sts

end

end Stmt

/-- The ids of the nodes of a program. -/
def Program.ids (p : Program) : List Nat := Stmt.idsAll p.stmts

/-! ## What is remembered -/

/-- Types are remembered under the given ids, and under one id always the same type. -/
structure Recorded (ids : List Nat) (ts : List (Nat × ValueType)) : Prop where
  mem : ∀ r ∈ ts, r.1 ∈ ids
  same : ∀ r ∈ ts, ∀ r' ∈ ts, r.1 = r'.1 → r.2 = r'.2

namespace Recorded

variable {ids ids' : List Nat} {ts ts' : List (Nat × ValueType)} {n : Nat} {τ : ValueType}

theorem nil : Recorded [] [] := ⟨by simp, by simp⟩

theorem append (h : Recorded ids ts) (h' : Recorded ids' ts') (hd : ids.Disjoint ids') :
    Recorded (ids ++ ids') (ts ++ ts') := by
  constructor
  · intro r hr
    rcases List.mem_append.mp hr with hr | hr
    · exact List.mem_append_left _ (h.mem r hr)
    · exact List.mem_append_right _ (h'.mem r hr)
  · intro r hr r' hr' heq
    rcases List.mem_append.mp hr with hr | hr <;> rcases List.mem_append.mp hr' with hr' | hr'
    · exact h.same r hr r' hr' heq
    · exact absurd (heq ▸ h'.mem r' hr') (hd (h.mem r hr))
    · exact absurd (h'.mem r hr) (hd (heq ▸ h.mem r' hr'))
    · exact h'.same r hr r' hr' heq

/-- One more type for an id under which nothing else is remembered. -/
theorem again (h : Recorded ids ts) (hn : n ∈ ids) (hown : ∀ r ∈ ts, r.1 = n → r.2 = τ) :
    Recorded ids (ts ++ [(n, τ)]) := by
  constructor
  · intro r hr
    rcases List.mem_append.mp hr with hr | hr
    · exact h.mem r hr
    · rw [List.mem_singleton.mp hr]
      exact hn
  · intro r hr r' hr' heq
    rcases List.mem_append.mp hr with hr | hr <;> rcases List.mem_append.mp hr' with hr' | hr'
    · exact h.same r hr r' hr' heq
    · rw [List.mem_singleton.mp hr'] at heq ⊢
      exact hown r hr heq
    · rw [List.mem_singleton.mp hr] at heq ⊢
      exact (hown r' hr' heq.symm).symm
    · rw [List.mem_singleton.mp hr, List.mem_singleton.mp hr']

/-- The type of a node with a new id. -/
theorem node (h : Recorded ids ts) (hn : n ∉ ids) : Recorded (n :: ids) (ts ++ [(n, τ)]) := by
  have hweak : Recorded (n :: ids) ts := ⟨fun r hr => List.mem_cons_of_mem _ (h.mem r hr), h.same⟩
  exact hweak.again List.mem_cons_self fun r hr heq => absurd (heq ▸ h.mem r hr) hn

/-- What was remembered is found. -/
theorem getElem?_foldl (h : Recorded ids ts) {r : Nat × ValueType} (hr : r ∈ ts) :
    (ts.foldl (fun m r => m.insert r.1 r.2) (∅ : Std.TreeMap Nat ValueType))[r.1]? = some r.2 := by
  induction ts using List.reverseRecOn with
  | nil => cases hr
  | append_singleton ts last ih =>
      rw [List.foldl_append, List.foldl_cons, List.foldl_nil, Std.TreeMap.getElem?_insert]
      have hinit : Recorded ids ts :=
        ⟨fun r hr => h.mem r (List.mem_append_left _ hr),
          fun r hr r' hr' => h.same r (List.mem_append_left _ hr) r' (List.mem_append_left _ hr')⟩
      -- a later type under the same id replaces the earlier one, but is the same
      by_cases heq : last.1 = r.1
      · rw [if_pos (Std.LawfulEqCmp.compare_eq_iff_eq.mpr heq)]
        exact congrArg some (h.same last (by simp) r hr heq)
      · rw [if_neg (fun hc => heq (Std.LawfulEqCmp.compare_eq_iff_eq.mp hc))]
        rcases List.mem_append.mp hr with hr | hr
        · exact ih hinit hr
        · exact absurd (congrArg Prod.fst (List.mem_singleton.mp hr)).symm heq

end Recorded

theorem Expr.id_mem_ids (e : Expr) : e.id ∈ e.ids := by
  cases e <;> exact List.mem_cons_self

/-- What is remembered for an expression: under its own id, the type it has in its position. -/
structure RecordedExpr (e : Expr) (τ : ValueType) (ts : List (Nat × ValueType)) : Prop where
  all : Recorded e.ids ts
  own : ∀ r ∈ ts, r.1 = e.id → r.2 = τ

namespace RecordedExpr

variable {e : Expr} {τ : ValueType} {ids : List Nat} {ts : List (Nat × ValueType)}

/-- A node with its parts. -/
theorem node {n : Nat} (h : Recorded ids ts) (hids : e.ids = n :: ids) (hid : e.id = n)
    (hn : n ∉ ids) : RecordedExpr e τ (ts ++ [(n, τ)]) := by
  refine ⟨hids ▸ h.node hn, fun r hr heq => ?_⟩
  rw [hid] at heq
  rcases List.mem_append.mp hr with hr | hr
  · exact absurd (heq ▸ h.mem r hr) hn
  · rw [List.mem_singleton.mp hr]

/-- A node with one part. -/
theorem one {n : Nat} {a : Expr} {σ : ValueType} (ih : a.ids.Nodup → RecordedExpr a σ ts)
    (hids : e.ids = n :: a.ids) (hid : e.id = n) (hnd : e.ids.Nodup) :
    RecordedExpr e τ (ts ++ [(n, τ)]) := by
  rw [hids, List.nodup_cons] at hnd
  exact node (ih hnd.2).all hids hid hnd.1

/-- A node with two parts, which share no id. -/
theorem two {n : Nat} {l r : Expr} {σ ρ : ValueType} {ts₁ ts₂ : List (Nat × ValueType)}
    (ih₁ : l.ids.Nodup → RecordedExpr l σ ts₁) (ih₂ : r.ids.Nodup → RecordedExpr r ρ ts₂)
    (hids : e.ids = n :: (l.ids ++ r.ids)) (hid : e.id = n) (hnd : e.ids.Nodup) :
    RecordedExpr e τ (ts₁ ++ ts₂ ++ [(n, τ)]) := by
  rw [hids, List.nodup_cons, List.nodup_append'] at hnd
  obtain ⟨hn, hl, hr, hd⟩ := hnd
  exact node ((ih₁ hl).all.append (ih₂ hr).all hd) hids hid hn

/-- A node that is gone through a second time. -/
theorem again (h : RecordedExpr e τ ts) : RecordedExpr e τ (ts ++ [(e.id, τ)]) := by
  refine ⟨h.all.again e.id_mem_ids h.own, fun r hr heq => ?_⟩
  rcases List.mem_append.mp hr with hr | hr
  · exact h.own r hr heq
  · rw [List.mem_singleton.mp hr]

end RecordedExpr

theorem ExprCode.recorded {e : Expr} {pos : ExprPosition} {s s' : Scope}
    {ts : List (Nat × ValueType)} {c : List Item} (h : ExprCode e pos s s' ts c)
    (hnd : e.ids.Nodup) : RecordedExpr e pos.type ts := by
  induction h with
  | literal _ => exact .node .nil rfl rfl (by simp)
  | var _ => exact .node .nil rfl rfl (by simp)
  | not _ ih => exact .one ih rfl rfl hnd
  | neg _ ih => exact .one ih rfl rfl hnd
  | arith _ _ _ ih₁ ih₂ => exact .two ih₁ ih₂ rfl rfl hnd
  | materialize _ _ ih => exact (ih hnd).again
  | grouping _ ih => exact .one ih rfl rfl hnd
  | assign _ _ ih => exact .one ih rfl rfl hnd
  | compare _ _ ih₁ ih₂ => exact .two ih₁ ih₂ rfl rfl hnd
  | and _ _ ih₁ ih₂ => exact .two ih₁ ih₂ rfl rfl hnd
  | or _ _ ih₁ ih₂ => exact .two ih₁ ih₂ rfl rfl hnd
  | groupingTest _ ih => exact .one ih rfl rfl hnd
  | branch _ _ ih => exact (ih hnd).again

theorem StmtCode.recorded {st : Stmt} {s s' : Scope} {ts : List (Nat × ValueType)}
    {c : List Item} (h : StmtCode st s s' ts c) (hnd : st.ids.Nodup) : Recorded st.ids ts := by
  induction h with
  | declare he _ =>
      rw [Stmt.ids] at hnd ⊢
      exact (he.recorded hnd).all
  | print he =>
      rw [Stmt.ids] at hnd ⊢
      exact (he.recorded hnd).all
  | read _ _ =>
      rw [Stmt.ids]
      exact .nil
  | ifThen he _ ih =>
      rw [Stmt.ids] at hnd ⊢
      obtain ⟨he', hyes, hd⟩ := List.nodup_append'.mp hnd
      exact (he.recorded he').all.append (ih hyes) hd
  | ifElse he _ _ ih₁ ih₂ =>
      rw [Stmt.ids] at hnd ⊢
      obtain ⟨hfirst, hno, hd⟩ := List.nodup_append'.mp hnd
      obtain ⟨he', hyes, hd'⟩ := List.nodup_append'.mp hfirst
      exact ((he.recorded he').all.append (ih₁ hyes) hd').append (ih₂ hno) hd
  | whileDo he _ ih =>
      rw [Stmt.ids] at hnd ⊢
      obtain ⟨he', hbody, hd⟩ := List.nodup_append'.mp hnd
      exact (he.recorded he').all.append (ih hbody) hd
  | nil =>
      rw [Stmt.ids, Stmt.idsAll]
      exact .nil
  | cons _ _ ih₁ ih₂ =>
      rw [Stmt.ids] at ih₂
      rw [Stmt.ids, Stmt.idsAll] at hnd ⊢
      obtain ⟨hst, hsts, hd⟩ := List.nodup_append'.mp hnd
      exact (ih₁ hst).append (ih₂ hsts) hd
  | store he _ =>
      rw [Stmt.ids] at hnd ⊢
      obtain ⟨hn, ha⟩ := List.nodup_cons.mp hnd
      exact (he.recorded ha).all.node hn
  | drop _ he =>
      rw [Stmt.ids] at hnd ⊢
      exact (he.recorded hnd).all

/-! ## What is found -/

/-- The types `ts` of nodes are those in `T`. -/
def TypesAgree (T : Nat → Option ValueType) (ts : List (Nat × ValueType)) : Prop :=
  ∀ r ∈ ts, T r.1 = some r.2

namespace TypesAgree

variable {T : Nat → Option ValueType} {ts ts' : List (Nat × ValueType)}

theorem left (h : TypesAgree T (ts ++ ts')) : TypesAgree T ts :=
  fun r hr => h r (List.mem_append_left _ hr)

theorem right (h : TypesAgree T (ts ++ ts')) : TypesAgree T ts' :=
  fun r hr => h r (List.mem_append_right _ hr)

theorem of_prefix (h : TypesAgree T ts') (hp : ts <+: ts') : TypesAgree T ts :=
  fun r hr => h r (hp.subset hr)

end TypesAgree

theorem Generator.typesAgree_of_generate {p : Program} {g : Generator} {ts : List (Nat × ValueType)}
    (hids : p.ids.Nodup) (hcode : StmtCode (.block p.span p.stmts) .empty g.scope ts g.items)
    (htypes : g.types = ts.foldl (fun m r => m.insert r.1 r.2) ∅) :
    TypesAgree (g.types[·]?) ts := by
  intro r hr
  rw [htypes]
  exact (hcode.recorded hids).getElem?_foldl hr

end Dam
