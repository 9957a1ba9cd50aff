import Dam.Proofs.Judgement
import Dam.Proofs.WatchedTypes

/-!
# The table of types

Behind the pass over a program, the table has an entry for each node of its expressions and for
nothing else, and the entries fit together: each operator finds the types it asks for, and
has the type it gives. `Program.Typed` says so of any table.
-/

namespace Dam

/-! ## Tables that fit -/

/-- In the table `T`, each node has the type that its kind and its parts ask for. -/
def Expr.Typed (T : Nat → Option ValueType) : Expr → Prop
  | literal n v => (T n.id).isSome ∧ T n.id = v.type?
  | var n _ => (T n.id).isSome
  | unary n .not a => T n.id = some .bool ∧ T a.id = some .bool ∧ a.Typed T
  | unary n .neg a => T n.id = some .numeric ∧ T a.id = some .numeric ∧ a.Typed T
  | binary n l (.arith op) r =>
    (∃ τ, T n.id = some τ ∧ T l.id = some τ ∧ T r.id = some τ ∧
      (τ = .numeric ∨ τ = .string ∧ op = .add)) ∧ l.Typed T ∧ r.Typed T
  | binary n l (.compare _) r =>
    T n.id = some .bool ∧ T l.id = T r.id ∧ l.Typed T ∧ r.Typed T
  | logical n l _ r =>
    T n.id = some .bool ∧ T l.id = some .bool ∧ T r.id = some .bool ∧ l.Typed T ∧ r.Typed T
  | grouping n a | assign n _ a => T n.id = T a.id ∧ a.Typed T

namespace Stmt

mutual

/-- The table fits the expressions of a statement, and its conditions can be true or false. -/
def Typed (T : Nat → Option ValueType) : Stmt → Prop
  | declare _ _ e | print _ e | expression _ e => e.Typed T
  | read _ _ => True
  | ifThen _ e yes => T e.id = some .bool ∧ e.Typed T ∧ yes.Typed T
  | ifElse _ e yes no => T e.id = some .bool ∧ e.Typed T ∧ yes.Typed T ∧ no.Typed T
  | whileDo _ e body => T e.id = some .bool ∧ e.Typed T ∧ body.Typed T
  | block _ ss => TypedAll T ss

/-- The table fits each of the statements. -/
def TypedAll (T : Nat → Option ValueType) : List Stmt → Prop
  | [] => True
  | st :: sts => st.Typed T ∧ TypedAll T sts

end

end Stmt

/-- The table fits a program. -/
def Program.Typed (T : Nat → Option ValueType) (p : Program) : Prop := Stmt.TypedAll T p.stmts

section

variable {T : Nat → Option ValueType}

/-- A table that fits has a type for the expression. -/
theorem Expr.Typed.isSome {e : Expr} (h : e.Typed T) : (T e.id).isSome := by
  induction e with
  | literal n v => exact h.1
  | var n x => exact h
  | unary n op a ih =>
      cases op <;> exact Option.isSome_of_eq_some h.1
  | binary n l op r ihl ihr =>
      cases op with
      | arith op =>
          obtain ⟨⟨τ, hn, _⟩, _⟩ := h
          exact Option.isSome_of_eq_some hn
      | compare c => exact Option.isSome_of_eq_some h.1
  | logical n l op r ihl ihr => exact Option.isSome_of_eq_some h.1
  | grouping n a ih | assign n x a ih =>
      obtain ⟨hn, ha⟩ := h
      have hsome := ih ha
      rw [← hn] at hsome
      exact hsome

/-- A table that fits has a type for each node. -/
theorem Expr.Typed.isSome_of_mem {e : Expr} (h : e.Typed T) {i : Nat} (hi : i ∈ e.ids) :
    (T i).isSome := by
  induction e with
  | literal n v | var n x =>
      rw [List.mem_singleton.mp hi]
      exact h.isSome
  | unary n op a ih =>
      have ha : a.Typed T := by
        cases op with
        | not => exact h.2.2
        | neg => exact h.2.2
      rcases List.mem_cons.mp hi with rfl | hi
      · exact h.isSome
      · exact ih ha hi
  | binary n l op r ihl ihr =>
      obtain ⟨hl, hr⟩ : l.Typed T ∧ r.Typed T := by
        cases op with
        | arith op => exact h.2
        | compare c => exact h.2.2
      rcases List.mem_cons.mp hi with rfl | hi
      · exact h.isSome
      rcases List.mem_append.mp hi with hi | hi
      · exact ihl hl hi
      · exact ihr hr hi
  | logical n l op r ihl ihr =>
      have ⟨_, _, _, hl, hr⟩ := h
      rcases List.mem_cons.mp hi with rfl | hi
      · exact h.isSome
      rcases List.mem_append.mp hi with hi | hi
      · exact ihl hl hi
      · exact ihr hr hi
  | grouping n a ih | assign n x a ih =>
      rcases List.mem_cons.mp hi with rfl | hi
      · exact h.isSome
      · exact ih h.2 hi

mutual

theorem Stmt.Typed.isSome_of_mem {i : Nat} : ∀ st : Stmt, st.Typed T → i ∈ st.ids → (T i).isSome
  | .declare _ _ e, h, hi | .print _ e, h, hi | .expression _ e, h, hi => by
      rw [Stmt.Typed] at h
      rw [Stmt.ids] at hi
      exact h.isSome_of_mem hi
  | .read _ _, _, hi => by
      rw [Stmt.ids] at hi
      cases hi
  | .ifThen _ e yes, h, hi => by
      rw [Stmt.Typed] at h
      rw [Stmt.ids] at hi
      obtain ⟨_, he, hyes⟩ := h
      rcases List.mem_append.mp hi with hi | hi
      · exact he.isSome_of_mem hi
      · exact isSome_of_mem yes hyes hi
  | .ifElse _ e yes no, h, hi => by
      rw [Stmt.Typed] at h
      rw [Stmt.ids] at hi
      obtain ⟨_, he, hyes, hno⟩ := h
      rcases List.mem_append.mp hi with hi | hi
      · rcases List.mem_append.mp hi with hi | hi
        · exact he.isSome_of_mem hi
        · exact isSome_of_mem yes hyes hi
      · exact isSome_of_mem no hno hi
  | .whileDo _ e body, h, hi => by
      rw [Stmt.Typed] at h
      rw [Stmt.ids] at hi
      obtain ⟨_, he, hbody⟩ := h
      rcases List.mem_append.mp hi with hi | hi
      · exact he.isSome_of_mem hi
      · exact isSome_of_mem body hbody hi
  | .block _ ss, h, hi => by
      rw [Stmt.Typed] at h
      rw [Stmt.ids] at hi
      exact isSome_of_mem_all ss h hi

theorem Stmt.Typed.isSome_of_mem_all {i : Nat} :
    ∀ ss : List Stmt, Stmt.TypedAll T ss → i ∈ Stmt.idsAll ss → (T i).isSome
  | [], _, hi => by
      rw [Stmt.idsAll] at hi
      cases hi
  | st :: sts, h, hi => by
      rw [Stmt.TypedAll] at h
      rw [Stmt.idsAll] at hi
      rcases List.mem_append.mp hi with hi | hi
      · exact isSome_of_mem st h.1 hi
      · exact isSome_of_mem_all sts h.2 hi

end

/-! ## What the pass remembers fits -/

theorem Literal.type?_of_push? {v : Literal} {i : Instr} {τ : ValueType}
    (h : v.push? = some (i, τ)) : v.type? = some τ := by
  cases v <;> cases h <;> rfl

/-- Strings can only be added. -/
theorem Gen.add_of_arithInstr? {op : ArithOp} {τ : ValueType} {i : Instr}
    (h : Gen.arithInstr? op τ = some i) : τ = .numeric ∨ τ = .string ∧ op = .add := by
  cases τ with
  | numeric => exact .inl rfl
  | string =>
      by_cases hop : op = .add
      · exact .inr ⟨rfl, hop⟩
      · rw [Gen.arithInstr?, if_neg hop] at h
        cases h
  | bool => cases h

/-- **The types remembered for an expression fit together.** -/
theorem ExprCode.typed {e : Expr} {pos : ExprPosition} {s s' : Scope}
    {ts : List (Nat × ValueType)} {c : List Item} (h : ExprCode e pos s s' ts c)
    (hT : TypesAgree T ts) : T e.id = some pos.type ∧ e.Typed T := by
  induction h with
  | literal hv =>
      have hn := hT _ (List.mem_singleton_self _)
      exact ⟨hn, Option.isSome_of_eq_some hn, hn.trans (Literal.type?_of_push? hv).symm⟩
  | var _ =>
      have hn := hT _ (List.mem_singleton_self _)
      exact ⟨hn, Option.isSome_of_eq_some hn⟩
  | not _ ih | neg _ ih =>
      have hn := hT.right _ (List.mem_singleton_self _)
      obtain ⟨ha, hparts⟩ := ih hT.left
      exact ⟨hn, hn, ha, hparts⟩
  | arith _ _ hi ihl ihr =>
      have hn := hT.right _ (List.mem_singleton_self _)
      obtain ⟨hl, hleft⟩ := ihl hT.left.left
      obtain ⟨hr, hright⟩ := ihr hT.left.right
      exact ⟨hn, ⟨_, hn, hl, hr, Gen.add_of_arithInstr? hi⟩, hleft, hright⟩
  | materialize _ _ ih => exact ih hT.left
  | grouping _ ih | assign _ _ ih | groupingTest _ ih =>
      have hn := hT.right _ (List.mem_singleton_self _)
      obtain ⟨ha, hparts⟩ := ih hT.left
      exact ⟨hn, hn.trans ha.symm, hparts⟩
  | compare _ _ ihl ihr =>
      have hn := hT.right _ (List.mem_singleton_self _)
      obtain ⟨hl, hleft⟩ := ihl hT.left.left
      obtain ⟨hr, hright⟩ := ihr hT.left.right
      exact ⟨hn, hn, hl.trans hr.symm, hleft, hright⟩
  | and _ _ ihl ihr | or _ _ ihl ihr =>
      have hn := hT.right _ (List.mem_singleton_self _)
      obtain ⟨hl, hleft⟩ := ihl hT.left.left
      obtain ⟨hr, hright⟩ := ihr hT.left.right
      exact ⟨hn, hn, hl, hr, hleft, hright⟩
  | branch _ _ ih => exact ih hT.left

/-- **The types remembered for a statement fit together.** -/
theorem StmtCode.typed {st : Stmt} {s s' : Scope} {ts : List (Nat × ValueType)} {c : List Item}
    (h : StmtCode st s s' ts c) (hT : TypesAgree T ts) : st.Typed T := by
  induction h with
  | declare he _ | print he | drop _ he =>
      rw [Stmt.Typed]
      exact (he.typed hT).2
  | read _ _ =>
      rw [Stmt.Typed]
      trivial
  | ifThen he _ ih =>
      rw [Stmt.Typed]
      obtain ⟨hbool, hparts⟩ := he.typed hT.left
      exact ⟨hbool, hparts, ih hT.right⟩
  | ifElse he _ _ ihyes ihno =>
      rw [Stmt.Typed]
      obtain ⟨hbool, hparts⟩ := he.typed hT.left.left
      exact ⟨hbool, hparts, ihyes hT.left.right, ihno hT.right⟩
  | whileDo he _ ih =>
      rw [Stmt.Typed]
      obtain ⟨hbool, hparts⟩ := he.typed hT.left
      exact ⟨hbool, hparts, ih hT.right⟩
  | nil =>
      rw [Stmt.Typed, Stmt.TypedAll]
      trivial
  | cons _ _ ihst ihsts =>
      have hsts := ihsts hT.right
      rw [Stmt.Typed] at hsts
      rw [Stmt.Typed, Stmt.TypedAll]
      exact ⟨ihst hT.left, hsts⟩
  | store ha _ =>
      have hn := hT.right _ (List.mem_singleton_self _)
      obtain ⟨htype, hparts⟩ := ha.typed hT.left
      rw [Stmt.Typed]
      exact ⟨hn.trans htype.symm, hparts⟩

end

/-! ## The keys -/

/-- Only what is remembered has an entry. -/
theorem mem_of_mem_foldl_insert {ts : List (Nat × ValueType)} {i : Nat} :
    i ∈ ts.foldl (fun m r => m.insert r.1 r.2) (∅ : Std.TreeMap Nat ValueType) →
      ∃ r ∈ ts, r.1 = i := by
  induction ts using List.reverseRecOn with
  | nil => exact fun h => absurd h Std.TreeMap.not_mem_emptyc
  | append_singleton ts last ih =>
      intro h
      rw [List.foldl_append, List.foldl_cons, List.foldl_nil, Std.TreeMap.mem_insert] at h
      rcases h with heq | h
      · exact ⟨last, by simp, Std.LawfulEqCmp.compare_eq_iff_eq.mp heq⟩
      · obtain ⟨r, hr, hi⟩ := ih h
        exact ⟨r, List.mem_append_left _ hr, hi⟩

namespace Generator

variable {p : Program} {g : Generator}

theorem mem_types_iff (hids : p.ids.Nodup) (h : empty.generate p = (.ok (), g)) (i : Nat) :
    i ∈ g.types ↔ i ∈ p.ids := by
  obtain ⟨ts, hcode, htypes⟩ := generate_code h
  have hT := typesAgree_of_generate hids hcode htypes
  constructor
  · intro hi
    rw [htypes] at hi
    obtain ⟨r, hr, rfl⟩ := mem_of_mem_foldl_insert hi
    have hmem := (hcode.recorded hids).mem r hr
    rw [Stmt.ids] at hmem
    exact hmem
  · intro hi
    have htyped := hcode.typed hT
    rw [Stmt.Typed] at htyped
    exact Std.TreeMap.isSome_getElem?_iff_mem.mp (Stmt.Typed.isSome_of_mem_all _ htyped hi)

/--
**The table of types.** For a program whose ids are distinct, the pass never replaces a type by
another: stopping where it would changes nothing, whatever the outcome. Where it succeeds, the
table has the ids of the program for its keys, and fits the program.
-/
theorem types_of_generate (hids : p.ids.Nodup) :
    Gen.stmtsWith Gen.record p.stmts = Gen.stmts p.stmts ∧
      (∀ clash, (Gen.stmtsWith (Gen.watch clash) p.stmts).run empty = empty.generate p) ∧
      ∀ g, empty.generate p = (.ok (), g) →
        (∀ i, i ∈ g.types ↔ i ∈ p.ids) ∧ p.Typed (g.types[·]?) := by
  refine ⟨Gen.stmtsWith_record _, fun clash => Gen.stmtsWith_watch_run hids, fun g h => ?_⟩
  refine ⟨mem_types_iff hids h, ?_⟩
  obtain ⟨ts, hcode, htypes⟩ := generate_code h
  have htyped := hcode.typed (typesAgree_of_generate hids hcode htypes)
  rw [Stmt.Typed] at htyped
  exact htyped

/-- A program that goes through some conditions twice, and one of them as a value. -/
theorem types_of_generate_greeting :
    Program.greeting.ids.Nodup ∧
      (∀ clash, (Gen.stmtsWith (Gen.watch clash) Program.greeting.stmts).run empty =
        empty.generate .greeting) ∧
      ∃ g, empty.generate .greeting = (.ok (), g) ∧
        (∀ i, i ∈ g.types ↔ i ∈ Program.greeting.ids) ∧ Program.greeting.Typed (g.types[·]?) := by
  have hids : Program.greeting.ids.Nodup := by decide
  obtain ⟨_, hwatch, htable⟩ := types_of_generate hids
  obtain ⟨a, ha⟩ := Program.greeting_assembles
  obtain ⟨g, hg, _⟩ := Program.assemble_eq_ok.mp ha
  exact ⟨hids, hwatch, g, hg, htable g hg⟩

end Generator

end Dam
