import Dam.Compile
import Dam.Proofs.Judgement
import Dam.Proofs.Lines
import Dam.Proofs.Linkage

/-!
# Diagnostics

A text has no diagnostics exactly if it can be compiled, and a diagnostic tells where to
look: it has a line, and the text has that line. The one exception is code whose operand
stack is too deep, which is found when all is done and has no line.

That lexer and parser stay in the text is shown in `Lines`. What is left is the pass: it
refuses an expression at a node of the expression, and a statement at the statement or an
expression in it (`RefusesAt`).
-/

namespace Dam

/-! ## Where the pass refuses -/

section

variable {α β σ : Type} {P : Nat → Prop}

/-- If the step fails, then with the line of a place that is `P`. -/
def RefusesAt (P : Nat → Prop) (m : ExceptT CodeError (StateM σ) α) : Prop :=
  ∀ s e s', m.run s = (.error e, s') → ∃ n, e.line = some n ∧ P n

theorem RefusesAt.bind {m : ExceptT CodeError (StateM σ) α}
    {f : α → ExceptT CodeError (StateM σ) β} (hm : RefusesAt P m) (hf : ∀ a, RefusesAt P (f a)) :
    RefusesAt P (m >>= f) := by
  intro s e s' h
  rw [run_bind] at h
  rcases hrun : m.run s with ⟨err | a, s₁⟩
  · rw [hrun] at h
    cases h
    exact hm s e s' hrun
  · rw [hrun] at h
    exact hf a s₁ e s' h

theorem refusesAt_modifyGet (f : σ → α × σ) :
    RefusesAt P (modifyGet f : ExceptT CodeError (StateM σ) α) := nofun

theorem refusesAt_pure (a : α) : RefusesAt P (pure a : ExceptT CodeError (StateM σ) α) := nofun

end

variable {P : Nat → Prop}

theorem Judge.orRefuse_refusesAt {α : Type} {line : Nat} (hline : P line) (fault : CodeFault)
    (o : Option α) : RefusesAt P (Judge.orRefuse line fault o) := by
  intro s e s' h
  cases o with
  | some a => cases h
  | none =>
      cases h
      exact ⟨line, rfl, hline⟩

theorem Judge.condition_refusesAt {line : Nat} (hline : P line) (τ : ValueType) :
    RefusesAt P (Judge.condition line τ) := by
  intro s e s' h
  rw [Judge.run_condition] at h
  split at h
  · cases h
  · cases h
    exact ⟨line, rfl, hline⟩

namespace Expr

theorem Placed.core {e : Expr} (h : e.Placed (Span.OnLine P)) : e.core.Placed (Span.OnLine P) := by
  induction e with
  | grouping n a ih => exact ih h.2
  | _ => exact h

/-- An expression is refused at one of its nodes. -/
theorem judge_refusesAt {e : Expr} (h : e.Placed (Span.OnLine P)) : RefusesAt P e.judge := by
  induction e with
  | literal n v => exact Judge.orRefuse_refusesAt h _ _
  | var n x =>
      exact (refusesAt_modifyGet _).bind fun _ =>
        (Judge.orRefuse_refusesAt h _ _).bind fun _ => refusesAt_pure _
  | unary n op a ih => exact (ih h.2).bind fun τ => Judge.orRefuse_refusesAt h.2.span _ _
  | binary n a op b iha ihb =>
      exact (iha h.2.1).bind fun τ => (ihb h.2.2).bind fun σ =>
        Judge.orRefuse_refusesAt h.2.1.span _ _
  | logical n a op b iha ihb =>
      refine (iha h.2.1).bind fun τ => ?_
      refine (Judge.condition_refusesAt h.2.1.core.span τ).bind fun _ => ?_
      exact (ihb h.2.2).bind fun σ => (Judge.condition_refusesAt h.2.2.core.span σ).bind fun _ =>
        refusesAt_pure _
  | grouping n a ih => exact ih h.2
  | assign n x a ih =>
      exact (ih h.2).bind fun τ => (refusesAt_modifyGet _).bind fun _ =>
        (Judge.orRefuse_refusesAt h.1 _ _).bind fun _ => refusesAt_pure _

theorem judgeTest_refusesAt {e : Expr} (h : e.Placed (Span.OnLine P)) : RefusesAt P e.judgeTest :=
  (judge_refusesAt h).bind fun τ => Judge.condition_refusesAt h.core.span τ

end Expr

namespace Gen

variable {α : Type}

/-- A step that follows the rules refuses where they do. -/
theorem Follows.refusesAt {m : Gen α} {j : Judge α} (hm : Follows m j) (hj : RefusesAt P j) :
    RefusesAt P m := by
  intro g e g' h
  have hrun := hm g
  rw [h] at hrun
  exact hj g.frame e g'.frame hrun

theorem value_refusesAt {e : Expr} (h : e.Placed (Span.OnLine P)) : RefusesAt P (value e) :=
  (both_follow e).1.refusesAt (Expr.judge_refusesAt h)

theorem test_refusesAt {e : Expr} (h : e.Placed (Span.OnLine P)) (l : Label) :
    RefusesAt P (test e l) :=
  ((both_follow e).2 l).refusesAt (Expr.judgeTest_refusesAt h)

theorem emit_refusesAt (i : Instr) : RefusesAt P (emit i) := refusesAt_modifyGet _

theorem place_refusesAt (l : Label) : RefusesAt P (place l) := refusesAt_modifyGet _

theorem newGroup_refusesAt : RefusesAt P newGroup := refusesAt_modifyGet _

theorem onFrame_refusesAt (f : Frame → α × Frame) : RefusesAt P (onFrame f) := refusesAt_modifyGet _

theorem orRefuse_refusesAt {line : Nat} (hline : P line) (fault : CodeFault) (o : Option α) :
    RefusesAt P (orRefuse line fault o) :=
  (follows_orRefuse line fault o).refusesAt (Judge.orRefuse_refusesAt hline fault o)

section

variable {line : Nat} {m : Gen ValueType} {t : Label → Gen Unit} {u v : Gen Unit}

theorem declare_refusesAt (hline : P line) (x : String) (hm : RefusesAt P m) :
    RefusesAt P (declare line x m) :=
  hm.bind fun _ => (onFrame_refusesAt _).bind fun _ =>
    (orRefuse_refusesAt hline _ _).bind fun _ => emit_refusesAt _

theorem print_refusesAt (hm : RefusesAt P m) : RefusesAt P (print m) :=
  (emit_refusesAt _).bind fun _ => hm.bind fun _ => emit_refusesAt _

theorem read_refusesAt (hline : P line) (x : String) : RefusesAt P (read line x) := by
  refine (onFrame_refusesAt _).bind fun _ => (orRefuse_refusesAt hline _ _).bind fun _ => ?_
  refine (onFrame_refusesAt _).bind fun _ => (orRefuse_refusesAt hline _ _).bind fun _ => ?_
  refine (emit_refusesAt _).bind fun _ => (emit_refusesAt _).bind fun _ => ?_
  refine (onFrame_refusesAt _).bind fun _ => (orRefuse_refusesAt hline _ _).bind fun _ => ?_
  exact emit_refusesAt _

theorem ifThen_refusesAt (ht : ∀ l, RefusesAt P (t l)) (hu : RefusesAt P u) :
    RefusesAt P (ifThen t u) := by
  refine newGroup_refusesAt.bind fun _ => (ht _).bind fun _ => ?_
  exact (place_refusesAt _).bind fun _ => hu.bind fun _ => place_refusesAt _

theorem ifElse_refusesAt (ht : ∀ l, RefusesAt P (t l)) (hu : RefusesAt P u)
    (hv : RefusesAt P v) : RefusesAt P (ifElse t u v) := by
  refine newGroup_refusesAt.bind fun _ => (ht _).bind fun _ => ?_
  refine (place_refusesAt _).bind fun _ => hu.bind fun _ => ?_
  refine (emit_refusesAt _).bind fun _ => (place_refusesAt _).bind fun _ => ?_
  exact hv.bind fun _ => place_refusesAt _

theorem whileDo_refusesAt (ht : ∀ l, RefusesAt P (t l)) (hu : RefusesAt P u) :
    RefusesAt P (whileDo t u) := by
  refine newGroup_refusesAt.bind fun _ => (place_refusesAt _).bind fun _ => ?_
  refine (ht _).bind fun _ => hu.bind fun _ => ?_
  exact (emit_refusesAt _).bind fun _ => place_refusesAt _

theorem discard_refusesAt {e : Expr} (h : e.Placed (Span.OnLine P)) : RefusesAt P (discard e) := by
  cases e with
  -- the value is not kept, but the assignment is judged as if it were
  | assign n x a =>
      have hfollows : Follows (typed n (assign false n.line x (value a)))
          (Expr.assign n x a).judge := .typed n (.assign n.line false x (both_follow a).1)
      exact (hfollows.refusesAt (Expr.judge_refusesAt h)).bind fun _ => refusesAt_pure _
  | literal | var | unary | binary | logical | grouping =>
      exact (value_refusesAt h).bind fun _ => emit_refusesAt _

end

mutual

/-- A statement is refused where it begins, or at a node or a statement in it. -/
theorem stmt_refusesAt : ∀ {st : Stmt}, st.Placed (Span.OnLine P) → RefusesAt P (stmt st)
  | .declare _ x _, h => declare_refusesAt h.1 x (value_refusesAt h.2)
  | .print _ _, h => print_refusesAt (value_refusesAt h.2)
  | .read _ x, h => read_refusesAt h x
  | .ifThen _ _ _, h => ifThen_refusesAt (test_refusesAt h.2.1) (stmt_refusesAt h.2.2)
  | .ifElse _ _ _ _, h =>
      ifElse_refusesAt (test_refusesAt h.2.1) (stmt_refusesAt h.2.2.1) (stmt_refusesAt h.2.2.2)
  | .whileDo _ _ _, h => whileDo_refusesAt (test_refusesAt h.2.1) (stmt_refusesAt h.2.2)
  | .block _ _, h => stmts_refusesAt h.2
  | .expression _ _, h => discard_refusesAt h.2

theorem stmts_refusesAt : ∀ {sts : List Stmt}, Stmt.PlacedAll (Span.OnLine P) sts →
    RefusesAt P (stmts sts)
  | [], _ => refusesAt_pure ()
  | _ :: _, h => (stmt_refusesAt h.1).bind fun _ => stmts_refusesAt h.2

end

end Gen

/-! ## Errors -/

/-- Finishing generated code fails for the depth of its stack only. -/
theorem Generator.tooDeep_of_finish_error {p : Program} {g : Generator} {e : CodeError}
    (hg : empty.generate p = (.ok (), g)) (hfin : g.finish = .error e) :
    ∃ depth, Code.depthLimit < depth ∧ e = ⟨.link (.tooDeep depth), none⟩ := by
  -- labels and walk never fail on generated code, so the limit is all that is left
  have hlabels := Code.checkLabels_eq_ok (finished_labels_nodup hg) fun _ => finished_targets hg
  obtain ⟨w, hw, _⟩ := finished_walk hg
  rw [finish_of_walk hlabels hw] at hfin
  split at hfin
  · rename_i hd
    cases hfin
    exact ⟨w.deepest, hd, rfl⟩
  · cases hfin

/-- A program is refused by the pass, or when its code is finished. -/
theorem Program.assemble_eq_error {p : Program} {e : CodeError} (h : p.assemble = .error e) :
    (∃ g, Generator.empty.generate p = (.error e, g)) ∨
      ∃ g, Generator.empty.generate p = (.ok (), g) ∧ g.finish = .error e := by
  unfold assemble at h
  rcases hg : Generator.empty.generate p with ⟨err | _, g⟩
  · rw [hg] at h
    cases h
    exact .inl ⟨g, rfl⟩
  · rw [hg] at h
    exact .inr ⟨g, rfl, h⟩

/-- A text is refused by the lexer, by the parser, or as a program. -/
theorem assemble_eq_error {source : String} {e : CompileError} (h : assemble source = .error e) :
    (∃ le, lex source = .error le ∧ e = .lex le) ∨
    (∃ tokens es, lex source = .ok tokens ∧ parse tokens = .error es ∧ e = .parse es) ∨
    ∃ tokens p ce, lex source = .ok tokens ∧ parse tokens = .ok p ∧ p.assemble = .error ce ∧
      e = .code ce := by
  rw [assemble_eq] at h
  cases hl : lex source with
  | error le =>
      rw [hl] at h
      cases h
      exact .inl ⟨le, rfl, rfl⟩
  | ok tokens =>
      rw [hl] at h
      cases hp : parse tokens with
      | error es =>
          simp only [hp] at h
          cases h
          exact .inr (.inl ⟨tokens, es, rfl, hp, rfl⟩)
      | ok p =>
          simp only [hp] at h
          cases ha : p.assemble with
          | error ce =>
              rw [ha] at h
              cases h
              exact .inr (.inr ⟨tokens, p, ce, rfl, hp, ha, rfl⟩)
          | ok a =>
              rw [ha] at h
              cases h

/-- The diagnostic shows a line of the text. -/
def Diagnostic.Shows (source : String) (d : Diagnostic) : Prop :=
  ∃ n, d.line = some n ∧ IsLine source n

/-- An error has diagnostics, and they show lines, unless the error is that code is too deep. -/
theorem diagnostics_of_error {source : String} {e : CompileError}
    (h : assemble source = .error e) :
    e.diagnostics ≠ [] ∧
      ((∀ d ∈ e.diagnostics, d.Shows source) ∨
        ∃ depth, Code.depthLimit < depth ∧ e = .code ⟨.link (.tooDeep depth), none⟩) := by
  obtain ⟨le, hl, rfl⟩ | ⟨tokens, es, hl, hp, rfl⟩ | ⟨tokens, p, ce, hl, hp, ha, rfl⟩ :=
    assemble_eq_error h
  · refine ⟨List.cons_ne_nil _ _, .inl ?_⟩
    exact List.forall_mem_singleton.mpr ⟨le.span.line, rfl, line_of_lex_error hl⟩
  · obtain ⟨hne, hlines⟩ := (Parser.lines_of_parse hl).2 es hp
    refine ⟨fun hnil => hne (List.map_eq_nil_iff.mp hnil), .inl ?_⟩
    exact List.forall_mem_map.mpr fun pe hpe => ⟨pe.span.line, rfl, hlines pe hpe⟩
  · refine ⟨List.cons_ne_nil _ _, ?_⟩
    obtain ⟨g, hg⟩ | ⟨g, hg, hfin⟩ := Program.assemble_eq_error ha
    · obtain ⟨n, hline, hn⟩ :=
        Gen.stmts_refusesAt ((Parser.lines_of_parse hl).1 p hp) _ ce g hg
      exact .inl (List.forall_mem_singleton.mpr ⟨n, hline, hn⟩)
    · obtain ⟨depth, hd, rfl⟩ := Generator.tooDeep_of_finish_error hg hfin
      exact .inr ⟨depth, hd, rfl⟩

/--
**Diagnostics are complete, and point into the text.** There are none exactly if the text
is compiled, whatever the class is called; where it is not compiled, they are those of the
error. Each has a line, which is one of the text's, unless the operand stack of the code is
too deep: then there is this one diagnostic, without a line.
-/
theorem checkDiagnostics_complete (source : String) :
    (checkDiagnostics source = [] ↔
      ∀ className sourceFile, ∃ text, compile source className sourceFile = .ok text) ∧
    (∀ className sourceFile e, compile source className sourceFile = .error e →
      checkDiagnostics source = e.diagnostics) ∧
    ((∀ d ∈ checkDiagnostics source,
        ∃ n, d.line = some n ∧ 1 ≤ n ∧ n ≤ 1 + source.toList.count '\n') ∨
      ∃ depth, Code.depthLimit < depth ∧
        (∀ className sourceFile, compile source className sourceFile =
          .error (.code ⟨.link (.tooDeep depth), none⟩)) ∧
        checkDiagnostics source = [⟨(CodeFault.link (.tooDeep depth)).message, none⟩]) := by
  simp only [checkDiagnostics_eq, compile_eq]
  cases ha : assemble source with
  | ok a =>
      refine ⟨⟨fun _ _ _ => ⟨_, rfl⟩, fun _ => rfl⟩, nofun, .inl nofun⟩
  | error e =>
      obtain ⟨hne, hshows⟩ := diagnostics_of_error ha
      refine ⟨⟨fun hnil => absurd hnil hne, fun hall => ?_⟩, ?_, ?_⟩
      · -- any name will do, since no class gets a text
        obtain ⟨text, htext⟩ := hall "" none
        cases htext
      · rintro _ _ _ ⟨⟩
        rfl
      · rcases hshows with hall | ⟨depth, hd, rfl⟩
        · exact .inl hall
        · exact .inr ⟨depth, hd, fun _ _ => rfl, rfl⟩

end Dam
