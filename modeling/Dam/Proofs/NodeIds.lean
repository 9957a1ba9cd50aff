import Dam.Proofs.RecordedTypes
import Dam.Proofs.Relocation
import Dam.Token.Lexer
import Mathlib.Logic.Relation

/-!
# Ids tell nodes apart

The parser draws the id of a node from a counter when the node is complete, so in a list of all
nodes with operands in front of what they are operands of, the ids go up. They go up over a whole
run of the parser, because the counter is never set back; but not one by one, because nodes are
thrown away: the target of an assignment, and all that belongs to a declaration with a fault.

What is drawn is also paid for. A node takes at least one token that is no other node's, so that
there are never more ids than tokens, and no id is too large for 32 bits if no place in the list
of tokens is. `State.Draws` has both sides of this, with what is left of the tokens to spare.
-/

namespace Dam

/-! ## Nodes in order -/

namespace Expr

/-- The operands of a node. -/
def operands : Expr → List Expr
  | literal .. | var .. => []
  | unary _ _ a | grouping _ a | assign _ _ a => [a]
  | binary _ l _ r | logical _ l _ r => [l, r]

/-- All nodes of an expression, operands first. -/
def postorder : Expr → List Expr
  | literal n v => [literal n v]
  | var n x => [var n x]
  | unary n op a => a.postorder ++ [unary n op a]
  | binary n l op r => l.postorder ++ r.postorder ++ [binary n l op r]
  | logical n l op r => l.postorder ++ r.postorder ++ [logical n l op r]
  | grouping n a => a.postorder ++ [grouping n a]
  | assign n x a => a.postorder ++ [assign n x a]

theorem postorder_eq (e : Expr) : e.postorder = e.operands.flatMap postorder ++ [e] := by
  cases e <;> simp [postorder, operands]

/-- `d` is an operand of `e`, or of an operand, and so on. -/
def Below : Expr → Expr → Prop := Relation.TransGen fun d e => d ∈ e.operands

end Expr

namespace Stmt

mutual

/-- All nodes of a statement, in the order of the text, operands first. -/
def postorder : Stmt → List Expr
  | declare _ _ e | print _ e | expression _ e => e.postorder
  | read _ _ => []
  | ifThen _ e yes => e.postorder ++ yes.postorder
  | ifElse _ e yes no => e.postorder ++ yes.postorder ++ no.postorder
  | whileDo _ e body => e.postorder ++ body.postorder
  | block _ ss => postorderAll ss

/-- All nodes of statements. -/
def postorderAll : List Stmt → List Expr
  | [] => []
  | st :: sts => st.postorder ++ postorderAll sts

end

end Stmt

/-- All nodes of a program. -/
def Program.postorder (p : Program) : List Expr := Stmt.postorderAll p.stmts

/-! ### Ids in either order -/

theorem Expr.ids_perm (e : Expr) : e.ids.Perm (e.postorder.map Expr.id) := by
  have hlast (i : Nat) (ids : List Nat) : (i :: ids).Perm (ids ++ [i]) :=
    (List.perm_append_singleton i ids).symm
  induction e with
  | literal | var => exact .refl _
  | unary n _ a ih | grouping n a ih | assign n _ a ih =>
      rw [ids, postorder, List.map_append]
      exact (hlast n.id a.ids).trans (ih.append_right _)
  | binary n l _ r ihl ihr | logical n l _ r ihl ihr =>
      rw [ids, postorder, List.map_append, List.map_append]
      exact (hlast n.id (l.ids ++ r.ids)).trans ((ihl.append ihr).append_right _)

mutual

theorem Stmt.ids_perm : ∀ st : Stmt, st.ids.Perm (st.postorder.map Expr.id)
  | declare _ _ e | print _ e | expression _ e => e.ids_perm
  | read _ _ => .refl _
  | ifThen _ e yes => by
      rw [ids, postorder, List.map_append]
      exact e.ids_perm.append yes.ids_perm
  | ifElse _ e yes no => by
      rw [ids, postorder, List.map_append, List.map_append]
      exact (e.ids_perm.append yes.ids_perm).append no.ids_perm
  | whileDo _ e body => by
      rw [ids, postorder, List.map_append]
      exact e.ids_perm.append body.ids_perm
  | block _ ss => Stmt.idsAll_perm ss

theorem Stmt.idsAll_perm :
    ∀ ss : List Stmt, (Stmt.idsAll ss).Perm ((Stmt.postorderAll ss).map Expr.id)
  | [] => .refl _
  | st :: sts => by
      rw [idsAll, postorderAll, List.map_append]
      exact st.ids_perm.append (Stmt.idsAll_perm sts)

end

/-! ### Whole expressions -/

/-- With a node, all that is below it is in the list, in the same order. -/
def Entire (nodes : List Expr) : Prop := ∀ e ∈ nodes, e.postorder.Sublist nodes

theorem entire_nil : Entire [] := nofun

theorem Entire.append {nodes nodes' : List Expr} (h : Entire nodes) (h' : Entire nodes') :
    Entire (nodes ++ nodes') := by
  intro e he
  rcases List.mem_append.mp he with he | he
  · exact (h e he).trans (List.sublist_append_left _ _)
  · exact (h' e he).trans (List.sublist_append_right _ _)

theorem entire_flatMap {α : Type} {f : α → List Expr} {l : List α} (h : ∀ a ∈ l, Entire (f a)) :
    Entire (l.flatMap f) := by
  induction l with
  | nil => exact entire_nil
  | cons a l ih =>
      rw [List.forall_mem_cons] at h
      rw [List.flatMap_cons]
      exact h.1.append (ih h.2)

theorem entire_node {e : Expr} (h : ∀ d ∈ e.operands, Entire d.postorder) : Entire e.postorder := by
  intro d hd
  rw [e.postorder_eq, List.mem_append, List.mem_singleton] at hd
  rcases hd with hd | rfl
  · rw [e.postorder_eq]
    exact (entire_flatMap h d hd).trans (List.sublist_append_left _ _)
  · exact List.Sublist.refl _

theorem Expr.entire_postorder (e : Expr) : Entire e.postorder := by
  induction e with
  | literal | var => exact entire_node (by simp [operands])
  | unary _ _ a ih | grouping _ a ih | assign _ _ a ih =>
      exact entire_node (by simpa [operands] using ih)
  | binary _ l _ r ihl ihr | logical _ l _ r ihl ihr =>
      exact entire_node (by simpa [operands] using ⟨ihl, ihr⟩)

mutual

theorem Stmt.entire_postorder : ∀ st : Stmt, Entire st.postorder
  | declare _ _ e | print _ e | expression _ e => e.entire_postorder
  | read _ _ => entire_nil
  | ifThen _ e yes => e.entire_postorder.append yes.entire_postorder
  | ifElse _ e yes no =>
      (e.entire_postorder.append yes.entire_postorder).append no.entire_postorder
  | whileDo _ e body => e.entire_postorder.append body.entire_postorder
  | block _ ss => Stmt.entire_postorderAll ss

theorem Stmt.entire_postorderAll : ∀ ss : List Stmt, Entire (Stmt.postorderAll ss)
  | [] => entire_nil
  | st :: sts => st.entire_postorder.append (Stmt.entire_postorderAll sts)

end

/-- In a list with increasing ids, a node has a greater id than all nodes below it. -/
theorem Entire.id_lt {nodes : List Expr} (h : Entire nodes)
    (hids : (nodes.map Expr.id).Pairwise (· < ·)) {d e : Expr} (he : e ∈ nodes)
    (hd : d.Below e) : d.id < e.id := by
  have hoperand {d e : Expr} (he : e ∈ nodes) (hd : d ∈ e.operands) :
      d ∈ nodes ∧ d.id < e.id := by
    have hsub := h e he
    have hrising := hids.sublist (hsub.map Expr.id)
    have hmem : d ∈ e.operands.flatMap Expr.postorder := by
      refine List.mem_flatMap.mpr ⟨d, hd, ?_⟩
      rw [d.postorder_eq]
      exact List.mem_append_right _ (List.mem_singleton_self d)
    rw [e.postorder_eq] at hsub hrising
    rw [List.map_append, List.pairwise_append] at hrising
    refine ⟨hsub.subset (List.mem_append_left _ hmem), ?_⟩
    exact hrising.2.2 d.id (List.mem_map_of_mem hmem) e.id (List.mem_singleton_self _)
  -- the way up from `d` goes over operands, and all of them are in the list
  induction hd with
  | single hd => exact (hoperand he hd).2
  | tail _ hm ih =>
      obtain ⟨hmem, hlt⟩ := hoperand he hm
      exact Nat.lt_trans (ih hmem) hlt

/-! ## Drawing ids -/

/-- The ids increase, from `low` on and below `high`. -/
structure Rising (low : Nat) (ids : List Nat) (high : Nat) : Prop where
  le : low ≤ high
  increasing : ids.Pairwise (· < ·)
  within : ∀ i ∈ ids, low ≤ i ∧ i < high

namespace Rising

variable {low mid high : Nat} {ids ids' : List Nat}

theorem nil (h : low ≤ high) : Rising low [] high := ⟨h, .nil, nofun⟩

theorem append (h : Rising low ids mid) (h' : Rising mid ids' high) :
    Rising low (ids ++ ids') high := by
  refine ⟨Nat.le_trans h.le h'.le, ?_, ?_⟩
  · refine List.pairwise_append.mpr ⟨h.increasing, h'.increasing, ?_⟩
    intro i hi j hj
    have := h.within i hi
    have := h'.within j hj
    omega
  · have hle := h.le
    have hle' := h'.le
    intro i hi
    rcases List.mem_append.mp hi with hi | hi
    · have := h.within i hi
      omega
    · have := h'.within i hi
      omega

theorem singleton (i : Nat) : Rising i [i] (i + 1) := by
  refine ⟨Nat.le_succ i, List.pairwise_singleton _ _, ?_⟩
  intro j hj
  obtain rfl := List.mem_singleton.mp hj
  exact ⟨Nat.le_refl _, Nat.lt_succ_self _⟩

end Rising

namespace Parser

/-- Between the states the ids of the nodes were drawn, and `spare` tokens were read for nothing:
every id is paid for with a token. -/
structure State.Draws (s : State) (nodes : List Expr) (spare : Nat) (s' : State) : Prop where
  rising : Rising s.nextId (nodes.map Expr.id) s'.nextId
  paid : s'.nextId + s'.left + spare ≤ s.nextId + s.left

namespace State

variable {s s₁ s₂ : State} {nodes nodes' : List Expr} {spare spare' : Nat}

theorem draws_refl (s : State) : s.Draws [] 0 s := ⟨.nil (Nat.le_refl _), Nat.le_refl _⟩

theorem draws_advance (h : s.peek.isEnd = false) : s.Draws [] 1 s.advance := by
  have hleft := left_advance h
  refine ⟨.nil (Nat.le_of_eq s.nextId_advance.symm), ?_⟩
  rw [nextId_advance]
  omega

theorem Draws.trans (h : s.Draws nodes spare s₁) (h' : s₁.Draws nodes' spare' s₂) :
    s.Draws (nodes ++ nodes') (spare + spare') s₂ := by
  refine ⟨?_, ?_⟩
  · rw [List.map_append]
    exact h.rising.append h'.rising
  · have hpaid := h.paid
    have hpaid' := h'.paid
    omega

/-- Nodes may be thrown away, and tokens too. -/
theorem Draws.forget (h : s.Draws nodes spare s₁) : s.Draws [] 0 s₁ := by
  refine ⟨.nil h.rising.le, ?_⟩
  have hpaid := h.paid
  omega

theorem Draws.waste (h : s.Draws nodes spare s₁) : s.Draws nodes 0 s₁ := by
  refine ⟨h.rising, ?_⟩
  have hpaid := h.paid
  omega

/-- A node is completed: it gets the next id, for which there is a token to spare. -/
theorem Draws.node {e : Expr} (h : s.Draws nodes spare s₁) (hspare : 0 < spare)
    (hnodes : e.operands.flatMap Expr.postorder = nodes) (hid : e.id = s₁.nextId) :
    s.Draws e.postorder 0 s₁.bump := by
  subst hnodes
  refine ⟨?_, ?_⟩
  · rw [e.postorder_eq, List.map_append]
    refine h.rising.append ?_
    rw [List.map_singleton, hid]
    exact .singleton _
  · have hpaid := h.paid
    rw [left_bump]
    show s₁.nextId + 1 + _ + _ ≤ _
    omega

theorem draws_resume (s : State) : s.Draws [] 0 s.resume := by
  fun_induction resume s with
  | case1 s | case2 s | case3 s => exact draws_refl s
  | case4 s hend _ _ ih => exact ((draws_advance (by simpa using hend)).trans ih).waste

theorem draws_recover (s : State) : s.Draws [] 0 s.recover := by
  unfold recover
  split
  · exact draws_refl s
  · rename_i hend
    exact ((draws_advance (by simpa using hend)).trans (draws_resume _)).waste

end State

/-- From `s` on, a success has drawn the ids of its nodes; a failure has no nodes. -/
def Outcome.Numbers {n : Nat} {α : Type} (x : Outcome n α) (s : State) (spare : Nat)
    (nodes : α → List Expr) : Prop :=
  match x with
  | ok a s' _ => s.Draws (nodes a) spare s'
  | fail _ s' _ => s.Draws [] 0 s'

namespace Outcome

variable {α β : Type} {m n : Nat} {s s₁ : State} {spare spare' : Nat} {before : List Expr}
  {nodes : α → List Expr} {nodes' : β → List Expr}

/-- What was drawn first stands in front. -/
theorem Numbers.after {x : Outcome n α} (hx : x.Numbers s₁ spare nodes)
    (h : s.Draws before spare' s₁) :
    x.Numbers s (spare' + spare) fun a => before ++ nodes a := by
  cases x with
  | ok a s' hs => exact h.trans hx
  | fail e s' hs => exact (h.forget.trans hx).forget

theorem Numbers.bind {x : Outcome m α} {h : m ≤ n}
    {f : α → (s : State) → s.left < m → Outcome n β} (hx : x.Numbers s spare nodes)
    (hf : ∀ a s₁ hs, s.Draws (nodes a) spare s₁ → (f a s₁ hs).Numbers s spare' nodes') :
    (x.bind h f).Numbers s spare' nodes' := by
  cases x with
  | ok a s₁ hs => exact hf a s₁ hs hx
  | fail e s₁ hs => exact hx

end Outcome

theorem refuse_numbers {α : Type} (fault : ParseFault) (s : State) (spare : Nat)
    (nodes : α → List Expr) : (refuse fault s).Numbers s spare nodes :=
  s.draws_refl

theorem expect_numbers (m : Mark) (s : State) : (expect m s).Numbers s 1 fun _ => [] := by
  by_cases h : s.peek = .mark m
  · rw [expect_mark h]
    exact State.draws_advance (h ▸ rfl)
  · rw [expect_other h]
    exact refuse_numbers ..

theorem expectName_numbers (s : State) : (expectName s).Numbers s 1 fun _ => [] := by
  by_cases h : ∃ x, s.peek = .name x
  · obtain ⟨x, hx⟩ := h
    rw [expectName_name hx]
    exact State.draws_advance (hx ▸ rfl)
  · rw [expectName_other fun x hx => h ⟨x, hx⟩]
    exact refuse_numbers ..

/-! ## Expressions -/

-- The recursion is that of the parser, and so are the measures.
mutual

theorem expression_numbers (s : State) : (expression s).Numbers s 0 Expr.postorder := by
  rw [expression]
  refine (operators_numbers 1 s).bind fun target s₁ hs₁ htarget => ?_
  by_cases he : s₁.peek = .mark .equal
  · have hlt : s₁.advance.left < s.left := Nat.lt_trans (State.left_advance_lt_of_eq he) hs₁
    have hsign : s.Draws [] (0 + 1) s₁.advance :=
      htarget.forget.trans (State.draws_advance (he ▸ rfl))
    rw [dif_pos he]
    refine ((expression_numbers s₁.advance).after hsign).bind fun value s₂ _ hvalue => ?_
    cases target with
    | var node x => exact hvalue.node (by decide) (by simp [Expr.operands]) rfl
    | literal | unary | binary | logical | grouping | assign => exact hvalue.forget
  · rw [dif_neg he]
    exact htarget
termination_by 4 * s.left + 3

theorem operators_numbers (min : Nat) (s : State) :
    (operators min s).Numbers s 0 Expr.postorder := by
  rw [operators]
  exact (unary_numbers s).bind fun first s₁ hs₁ hfirst =>
    operatorsAfter_numbers min s₁ hs₁ hfirst
termination_by 4 * s.left + 2

theorem operatorsAfter_numbers {n : Nat} (min : Nat) {first : Expr} {s₀ : State} (s : State)
    (h : s.left < n) (hfirst : s₀.Draws first.postorder 0 s) :
    (operatorsAfter min first s h).Numbers s₀ 0 Expr.postorder := by
  cases ho : Operator.ofToken? s.peek with
  | none =>
      rw [operatorsAfter_none ho]
      exact hfirst
  | some op =>
      by_cases hmin : op.level < min
      · rw [operatorsAfter_low ho hmin]
        exact hfirst
      · have hend := Operator.isEnd_of_ofToken? ho
        have hlt := State.left_advance_lt hend
        rw [operatorsAfter_join ho (Nat.le_of_not_lt hmin)]
        refine ((operators_numbers (op.level + 1) s.advance).after
          (hfirst.trans (State.draws_advance hend))).bind fun second s₁ hs₁ hsecond => ?_
        refine operatorsAfter_numbers min s₁.bump _ (hsecond.node (by decide) ?_ ?_)
        · cases op <;> simp [Operator.join, Expr.operands]
        · cases op <;> rfl
termination_by 4 * s.left

theorem unary_numbers (s : State) : (unary s).Numbers s 0 Expr.postorder := by
  cases ho : UnaryOp.ofToken? s.peek with
  | none =>
      rw [unary_operand ho]
      exact primary_numbers s
  | some op =>
      have hend := UnaryOp.isEnd_of_ofToken? ho
      have hlt := State.left_advance_lt hend
      rw [unary_operator ho]
      refine ((unary_numbers s.advance).after (State.draws_advance hend)).bind
        fun operand s₁ _ hoperand => ?_
      exact hoperand.node (by decide) (by simp [Expr.operands]) rfl
termination_by 4 * s.left + 1

theorem primary_numbers (s : State) : (primary s).Numbers s 0 Expr.postorder := by
  cases hl : Literal.ofToken? s.peek with
  | some l =>
      rw [primary_literal hl]
      exact (State.draws_advance (Literal.isEnd_of_ofToken? hl)).node (by decide) rfl
        s.nextId_advance.symm
  | none =>
      by_cases hx : ∃ x, s.peek = .name x
      · obtain ⟨x, hx⟩ := hx
        rw [primary_name hx]
        exact (State.draws_advance (hx ▸ rfl)).node (by decide) rfl s.nextId_advance.symm
      · by_cases hp : s.peek = .mark .leftParen
        · have hlt := State.left_advance_lt_of_eq hp
          rw [primary_paren hp]
          refine ((expression_numbers s.advance).after (State.draws_advance (hp ▸ rfl))).bind
            fun inner s₁ _ hinner => ?_
          refine ((expect_numbers .rightParen s₁).after hinner).bind fun _ s₂ _ hclosed => ?_
          exact hclosed.node (by decide) (by simp [Expr.operands]) rfl
        · rw [primary_other hl (fun x h => hx ⟨x, h⟩) hp]
          exact refuse_numbers ..
termination_by 4 * s.left

end

/-! ## Statements -/

section

variable {n : Nat} {s₀ : State} (start : Span) (s : State) (h : s.left < n)

theorem finish_numbers {nodes : List Expr} (h₀ : s₀.Draws nodes 0 s) {f : Span → Stmt}
    (hf : ∀ span, (f span).postorder = nodes) :
    (finish start s h f).Numbers s₀ 0 Stmt.postorder := by
  refine ((expect_numbers .semicolon s).after h₀).bind fun _ s₁ _ hs₁ => ?_
  show s₀.Draws (f _).postorder 0 s₁
  rw [hf, ← List.append_nil nodes]
  exact hs₁.waste

theorem declaredAfter_numbers : (declaredAfter start s h).Numbers s 0 Stmt.postorder := by
  refine (expectName_numbers s).bind fun x s₁ _ hs₁ => ?_
  by_cases he : s₁.peek = .mark .equal
  · have hsign := (hs₁.trans (State.draws_advance (he ▸ rfl))).forget
    rw [dif_pos he]
    refine ((expression_numbers s₁.advance).after hsign).bind fun value s₂ _ hvalue => ?_
    exact finish_numbers _ _ _ hvalue fun _ => rfl
  · rw [dif_neg he]
    -- the name pays for the value that is not written
    exact finish_numbers _ _ _ (hs₁.node (by decide) rfl rfl) fun _ => rfl

theorem printedAfter_numbers : (printedAfter start s h).Numbers s 0 Stmt.postorder :=
  (expression_numbers s).bind fun _ _ _ hvalue => finish_numbers _ _ _ hvalue fun _ => rfl

theorem readAfter_numbers : (readAfter start s h).Numbers s 0 Stmt.postorder :=
  (expectName_numbers s).bind fun _ _ _ hs₁ => finish_numbers _ _ _ hs₁.waste fun _ => rfl

theorem expressionStmt_numbers : (expressionStmt s).Numbers s 0 Stmt.postorder :=
  (expression_numbers s).bind fun _ _ _ hvalue => finish_numbers _ _ _ hvalue fun _ => rfl

theorem condition_numbers : (condition s h).Numbers s 0 Expr.postorder := by
  refine (expect_numbers .leftParen s).bind fun _ s₁ _ hs₁ => ?_
  refine ((expression_numbers s₁).after hs₁.forget).bind fun value s₂ _ hvalue => ?_
  refine ((expect_numbers .rightParen s₂).after hvalue).bind fun _ s₃ _ hs₃ => ?_
  show s.Draws value.postorder 0 s₃
  rw [← List.append_nil value.postorder]
  exact hs₃.waste

end

mutual

theorem statement_numbers (s : State) : (statement s).Numbers s 0 Stmt.postorder := by
  by_cases hw : ∃ k, s.peek = .word k
  · obtain ⟨k, hk⟩ := hw
    have hlt := State.left_advance_lt_of_eq hk
    have hword := (State.draws_advance (s := s) (hk ▸ rfl)).forget
    rw [statement_word hk]
    cases k with
    | ifWord =>
        refine ((condition_numbers s.advance _).after hword).bind fun test s₁ hs₁ htest => ?_
        refine ((statement_numbers s₁).after htest).bind fun yes s₂ hs₂ hyes => ?_
        by_cases he : s₂.peek = .word .elseWord
        · have hlt₂ := State.left_advance_lt_of_eq he
          have helse := State.draws_advance (s := s₂) (he ▸ rfl)
          rw [dif_pos he]
          refine ((statement_numbers s₂.advance).after (hyes.trans helse)).bind
            fun no s₃ _ hno => ?_
          show s.Draws (test.postorder ++ yes.postorder ++ no.postorder) 0 s₃
          simpa using hno.waste
        · rw [dif_neg he]
          exact hyes
    | whileWord =>
        refine ((condition_numbers s.advance _).after hword).bind fun test s₁ hs₁ htest => ?_
        exact ((statement_numbers s₁).after htest).bind fun body s₂ _ hbody => hbody
    | printWord => exact (printedAfter_numbers _ _ _).after hword
    | readWord => exact (readAfter_numbers _ _ _).after hword
    | letWord | forWord | returnWord | toWord => exact refuse_numbers ..
    | andWord | elseWord | falseWord | nullWord | orWord | trueWord =>
        exact expressionStmt_numbers s
  · by_cases hb : s.peek = .mark .leftBrace
    · have hlt := State.left_advance_lt_of_eq hb
      have hbrace := (State.draws_advance (s := s) (hb ▸ rfl)).forget
      obtain ⟨ss, hss, hblock⟩ := declarations_numbers true [] s.advance (Nat.le_refl _)
      rw [statement_brace hb]
      refine ((expect_numbers .rightBrace _).after (hbrace.trans hblock)).bind fun _ s₂ _ hs₂ => ?_
      show s.Draws (Stmt.postorderAll (declarations true [] s.advance _).1.1) 0 s₂
      rw [hss]
      simpa using hs₂.waste
    · rw [statement_other (fun k h => hw ⟨k, h⟩) hb]
      exact expressionStmt_numbers s
termination_by 3 * s.left

theorem declaration_numbers (s : State) : (declaration s).Numbers s 0 Stmt.postorder := by
  by_cases h : s.peek = .word .letWord
  · rw [declaration_let h]
    exact (declaredAfter_numbers _ _ _).after (State.draws_advance (s := s) (h ▸ rfl)).forget
  · rw [declaration_other h]
    exact statement_numbers s
termination_by 3 * s.left + 1

theorem declarations_numbers {n : Nat} (inBlock : Bool) (done : List Stmt) (s : State)
    (h : s.left ≤ n) :
    ∃ ss, (declarations inBlock done s h).1.1 = done.reverse ++ ss ∧
      s.Draws (Stmt.postorderAll ss) 0 (declarations inBlock done s h).1.2 := by
  cases he : ends inBlock s.peek with
  | true =>
      rw [declarations_end he]
      exact ⟨[], (List.append_nil _).symm, s.draws_refl⟩
  | false =>
      have hd := declaration_numbers s
      cases hrun : declaration s with
      | ok st s₁ hs₁ =>
          rw [hrun] at hd
          rw [declarations_ok he hrun]
          obtain ⟨ss, hss, hrest⟩ := declarations_numbers inBlock (st :: done) s₁
            (Nat.le_of_lt (Nat.lt_of_lt_of_le hs₁ h))
          refine ⟨st :: ss, ?_, hd.trans hrest⟩
          rw [hss, List.reverse_cons, List.append_assoc]
          rfl
      | fail e s₁ hs₁ =>
          rw [hrun] at hd
          have hlt := State.left_recover_lt (s := s₁.note e) hs₁ (left_pos_of_ends he)
          rw [declarations_fail he hrun]
          obtain ⟨ss, hss, hrest⟩ := declarations_numbers inBlock done (s₁.note e).recover
            (Nat.le_of_lt (Nat.lt_of_lt_of_le hlt h))
          -- the ids of the declaration with the fault are lost, and not drawn again
          have hnote : s₁.Draws [] 0 (s₁.note e) := ⟨.nil (Nat.le_refl _), Nat.le_refl _⟩
          exact ⟨ss, hss, ((hd.trans hnote).trans (State.draws_recover _)).trans hrest⟩
termination_by 3 * s.left + 2

end

/-! ## Calls -/

/-- What can be asked of a parser. -/
inductive Call where
  | program
  | expression

/-- What the parser has returned. -/
inductive Reply where
  | program (result : Except (List ParseError) Program)
  | expression (result : Except ParseError Expr)

/-- The nodes in a reply. -/
def Reply.postorder : Reply → List Expr
  | program (.ok p) => p.postorder
  | expression (.ok e) => e.postorder
  | program (.error _) | expression (.error _) => []

/-- The reply to a call, and the state of the parser behind it. -/
def Call.reply (s : State) : Call → Reply × State
  | program => (.program (Parser.program s).1, (Parser.program s).2)
  | expression => (.expression (Parser.expression s).result.1, (Parser.expression s).result.2)

/-- The replies to calls of one parser. -/
def replies (s : State) : List Call → List Reply
  | [] => []
  | c :: cs => (c.reply s).1 :: replies (c.reply s).2 cs

theorem Call.reply_draws (c : Call) (s : State) :
    s.Draws (c.reply s).1.postorder 0 (c.reply s).2 := by
  cases c with
  | program =>
      obtain ⟨ss, hss, hdraws⟩ := declarations_numbers false [] s (Nat.le_refl _)
      unfold reply Parser.program
      dsimp only
      rw [hss]
      split
      · exact hdraws
      · have hcleared : (declarations false [] s (Nat.le_refl _)).1.2.Draws [] 0
            { (declarations false [] s (Nat.le_refl _)).1.2 with faults := #[] } :=
          ⟨.nil (Nat.le_refl _), Nat.le_refl _⟩
        exact hdraws.forget.trans hcleared
  | expression =>
      have hnumbers := expression_numbers s
      unfold reply
      dsimp only
      cases hrun : Parser.expression s with
      | ok e s' hs =>
          rw [hrun] at hnumbers
          exact hnumbers
      | fail e s' hs =>
          rw [hrun] at hnumbers
          exact hnumbers

theorem replies_draw (s : State) (cs : List Call) :
    ∃ s', s.Draws ((replies s cs).flatMap Reply.postorder) 0 s' := by
  induction cs generalizing s with
  | nil => exact ⟨s, s.draws_refl⟩
  | cons c cs ih =>
      obtain ⟨s', hs'⟩ := ih (c.reply s).2
      exact ⟨s', (c.reply_draws s).trans hs'⟩

theorem Reply.entire_postorder (r : Reply) : Entire r.postorder := by
  rcases r with (_ | p) | (_ | e)
  · exact entire_nil
  · exact Stmt.entire_postorderAll p.stmts
  · exact entire_nil
  · exact e.entire_postorder

end Parser

/-! ## Ids identify nodes -/

/-- The ids of the nodes, listed with operands first, tell the nodes apart. -/
structure Numbered (nodes : List Expr) : Prop where
  increasing : (nodes.map Expr.id).Pairwise (· < ·)
  /-- No two nodes share an id. -/
  distinct : (nodes.map Expr.id).Nodup
  /-- A node has a greater id than all nodes below it. -/
  above : ∀ e ∈ nodes, ∀ d : Expr, d.Below e → d.id < e.id
  /-- Ids have at most 32 bits, so that none was taken for a smaller one. -/
  fits : ∀ e ∈ nodes, e.id < twoTo 32

theorem Rising.numbered {high : Nat} {nodes : List Expr}
    (h : Rising 0 (nodes.map Expr.id) high) (hentire : Entire nodes) (hhigh : high ≤ twoTo 32) :
    Numbered nodes where
  increasing := h.increasing
  distinct := h.increasing.imp Nat.ne_of_lt
  above _ he _ hd := hentire.id_lt h.increasing he hd
  fits e he := Nat.lt_of_lt_of_le (h.within e.id (List.mem_map_of_mem he)).2 hhigh

/-- **Ids identify nodes**: within a program, and over all that any calls of one parser return. -/
theorem numbered_of_calls {tokens : List Token} (h : tokens.length < twoTo 32) :
    (∀ p, parse tokens = .ok p → Numbered p.postorder ∧ p.ids.Nodup) ∧
    ∀ calls, Numbered ((Parser.replies (.start tokens) calls).flatMap Parser.Reply.postorder) := by
  have hcalls (calls : List Parser.Call) :
      Numbered ((Parser.replies (.start tokens) calls).flatMap Parser.Reply.postorder) := by
    obtain ⟨s', hs'⟩ := Parser.replies_draw (.start tokens) calls
    refine hs'.rising.numbered (entire_flatMap fun r _ => r.entire_postorder) ?_
    have hpaid := hs'.paid
    have hleft : (Parser.State.start tokens).left ≤ tokens.length :=
      (List.takeWhile_sublist _).length_le
    have hnext : (Parser.State.start tokens).nextId = 0 := rfl
    omega
  refine ⟨fun p hp => ?_, hcalls⟩
  have hreply : (Parser.Call.program.reply (.start tokens)).1 = .program (.ok p) :=
    congrArg Parser.Reply.program hp
  have hprogram := hcalls [.program]
  rw [Parser.replies, hreply, Parser.replies, List.flatMap_singleton] at hprogram
  exact ⟨hprogram, (Stmt.idsAll_perm p.stmts).nodup_iff.mpr hprogram.distinct⟩

/-- Three targets of assignments are thrown away, and one value is not written. -/
def numberedSample : String := "let a; b = -(a + 1) * 2; if (b < 3) c = b = 4;"

/-- Two expressions, the second one with a fault, and a program behind them. -/
def numberedRemnants : String := "a = 1 (b or c) = 2 let b; c = -b;"

theorem numbered_of_calls_sample :
    (∃ tokens p, lex numberedSample = .ok tokens ∧ tokens.length < twoTo 32 ∧ parse tokens = .ok p ∧
      p.postorder.map Expr.id = [0, 2, 3, 4, 5, 6, 7, 8, 9, 10, 11, 12, 15, 16, 17] ∧
      Numbered p.postorder ∧ p.ids.Nodup) ∧
    ∃ tokens nodes, lex numberedRemnants = .ok tokens ∧ tokens.length < twoTo 32 ∧
      (Parser.replies (.start tokens) [.expression, .expression, .program]).flatMap
        Parser.Reply.postorder = nodes ∧
      nodes.map Expr.id = [1, 2, 8, 10, 11, 12] ∧ Numbered nodes := by
  constructor
  · have hrun : (lex numberedSample).toOption.bind (fun ts => (parse ts).toOption.map fun p =>
        (ts.length, p.postorder.map Expr.id)) =
        some (27, [0, 2, 3, 4, 5, 6, 7, 8, 9, 10, 11, 12, 15, 16, 17]) := by decide +kernel
    cases hlex : lex numberedSample with
    | error e =>
        rw [hlex] at hrun
        cases hrun
    | ok tokens =>
        rw [hlex] at hrun
        change (parse tokens).toOption.map _ = _ at hrun
        cases hparse : parse tokens with
        | error es =>
            rw [hparse] at hrun
            cases hrun
        | ok p =>
            rw [hparse] at hrun
            obtain ⟨hlength, hids⟩ := Prod.mk.inj (Option.some.inj hrun)
            have hfew : tokens.length < twoTo 32 := by rw [hlength]; decide
            exact ⟨tokens, p, rfl, hfew, hparse, hids, (numbered_of_calls hfew).1 p hparse⟩
  · have hrun : (lex numberedRemnants).toOption.map (fun ts => (ts.length,
        ((Parser.replies (.start ts) [.expression, .expression, .program]).flatMap
          Parser.Reply.postorder).map Expr.id)) = some (19, [1, 2, 8, 10, 11, 12]) := by
      decide +kernel
    cases hlex : lex numberedRemnants with
    | error e =>
        rw [hlex] at hrun
        cases hrun
    | ok tokens =>
        rw [hlex] at hrun
        obtain ⟨hlength, hids⟩ := Prod.mk.inj (Option.some.inj hrun)
        have hfew : tokens.length < twoTo 32 := by rw [hlength]; decide
        exact ⟨tokens, _, rfl, hfew, rfl, hids, (numbered_of_calls hfew).2 _⟩

end Dam
