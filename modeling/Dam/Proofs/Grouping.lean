import Dam.Proofs.Coupling
import Dam.Proofs.Layout
import Mathlib.Data.List.Basic

/-!
# Parentheses do not matter

Parentheses decide how a program is read. Once it is a tree they decide nothing: the tree
without its groupings has the same code, in both positions of every expression. The pass
spends no instruction and no label on a grouping. It only remembers a type and a target for
one node more, and where it complains about an operand, the line is that of the parenthesis.

There is one place where the pass looks at the shape of an expression and does not look
through parentheses: a statement that is an assignment stores its value at once, while any
other value is dropped after it was made. So `(x = 1);` has other code than `x = 1;`, and
statements of the first form are left out.
-/

namespace Dam

/-! ## Without parentheses -/

namespace Expr

/-- The expression without its groupings. -/
def ungroup : Expr → Expr
  | literal n v => literal n v
  | var n x => var n x
  | unary n op a => unary n op a.ungroup
  | binary n l op r => binary n l.ungroup op r.ungroup
  | logical n l op r => logical n l.ungroup op r.ungroup
  | grouping _ a => a.ungroup
  | assign n x a => assign n x a.ungroup

/-- Whether an expression is an assignment in at least one pair of parentheses. -/
def isWrappedAssign : Expr → Bool
  | grouping _ a => a.isAssign || a.isWrappedAssign
  | _ => false

/-- Without its groupings an expression is an assignment only if it was one, wrapped or not. -/
theorem isAssign_ungroup (e : Expr) :
    e.ungroup.isAssign = (e.isAssign || e.isWrappedAssign) := by
  induction e with
  | grouping n a ih => exact ih
  | _ => rfl

end Expr

namespace Stmt

mutual

/-- The statement without groupings. -/
def ungroup : Stmt → Stmt
  | declare sp x e => declare sp x e.ungroup
  | print sp e => print sp e.ungroup
  | read sp x => read sp x
  | ifThen sp e yes => ifThen sp e.ungroup yes.ungroup
  | ifElse sp e yes no => ifElse sp e.ungroup yes.ungroup no.ungroup
  | whileDo sp e body => whileDo sp e.ungroup body.ungroup
  | block sp ss => block sp (ungroupAll ss)
  | expression sp e => expression sp e.ungroup

/-- Statements without groupings. -/
def ungroupAll : List Stmt → List Stmt
  | [] => []
  | st :: sts => st.ungroup :: ungroupAll sts

end

mutual

/-- No statement in it is an assignment in parentheses. -/
def assignsOpenly : Stmt → Bool
  | expression _ e => !e.isWrappedAssign
  | ifThen _ _ yes => yes.assignsOpenly
  | ifElse _ _ yes no => yes.assignsOpenly && no.assignsOpenly
  | whileDo _ _ body => body.assignsOpenly
  | block _ ss => allAssignOpenly ss
  | declare _ _ _ | print _ _ | read _ _ => true

/-- No statement in them is an assignment in parentheses. -/
def allAssignOpenly : List Stmt → Bool
  | [] => true
  | st :: sts => st.assignsOpenly && allAssignOpenly sts

end

end Stmt

/-- The program without groupings. -/
def Program.ungroup (p : Program) : Program := ⟨Stmt.ungroupAll p.stmts, p.span⟩

/-- No statement of the program is an assignment in parentheses. -/
def Program.assignsOpenly (p : Program) : Bool := Stmt.allAssignOpenly p.stmts

/-! ## The pass -/

/-- The states differ in what is remembered about nodes alone. -/
structure Generator.SameCode (g g' : Generator) : Prop where
  code : g'.code = g.code
  frame : g'.frame = g.frame
  nextGroup : g'.nextGroup = g.nextGroup

theorem Generator.SameCode.finish {g g' : Generator} (h : SameCode g g') :
    g'.finish = g.finish := by
  have hitems : g'.items = g.items := congrArg List.reverse h.code
  unfold Generator.finish finishedItems
  rw [h.frame, hitems]

/-- A pass over a program and a pass that may remember other nodes, at other lines. -/
def Coupling.otherNodes : Coupling where
  States := Generator.SameCode
  Names := Eq
  Lines _ _ := True
  Errors e e' := e'.unlined = e.unlined
  push := by
    intro g g' h x
    exact ⟨congrArg (x :: ·) h.code, h.frame, h.nextGroup⟩
  note := fun h _ _ => ⟨h.code, h.frame, h.nextGroup⟩
  aim := fun h _ _ => ⟨h.code, h.frame, h.nextGroup⟩
  group := fun h => h.nextGroup
  next := by
    intro g g' h
    exact ⟨h.code, h.frame, congrArg (· + 1) h.nextGroup⟩
  lookUp := by
    rintro g g' x _ h rfl
    rw [h.frame]
  assign := by
    rintro g g' x _ h rfl τ
    rw [h.frame]
    exact ⟨rfl, h.code, rfl, h.nextGroup⟩
  define := by
    rintro g g' x _ h rfl τ
    rw [h.frame]
    exact ⟨rfl, h.code, rfl, h.nextGroup⟩
  useScanner := by
    intro g g' h
    rw [h.frame]
    exact ⟨rfl, h.code, rfl, h.nextGroup⟩
  fault := fun _ _ _ => rfl
  undefined := by
    rintro line line' x _ _ rfl
    rfl

namespace Coupling

/-- What the first pass remembers of a node does not show in the second. -/
theorem links_typed {m m' : Gen ValueType} (hm : otherNodes.Links m m') (n : Node) :
    otherNodes.Links (Gen.typed n m) m' := by
  intro g g' h
  have hfirst := hm g g' h
  rw [Gen.typed, run_bind]
  generalize m.run g = r at hfirst ⊢
  generalize m'.run g' = r' at hfirst ⊢
  cases hfirst with
  | ok hs => exact .ok ⟨hs.code, hs.frame, hs.nextGroup⟩
  | error he hs => exact .error he hs

theorem links_routed {b b' : Gen Unit} (hb : otherNodes.Links b b') (n : Node) (l : Label) :
    otherNodes.Links (Gen.routed n l b) b' := by
  intro g g' h
  have hfirst := hb (g.aim n.id l) g' ⟨h.code, h.frame, h.nextGroup⟩
  have hrun : (Gen.routed n l b).run g =
      (b >>= fun _ => Gen.record n.id .bool).run (g.aim n.id l) := rfl
  rw [hrun, run_bind]
  generalize b.run (g.aim n.id l) = r at hfirst ⊢
  generalize b'.run g' = r' at hfirst ⊢
  cases hfirst with
  | ok hs => exact .ok ⟨hs.code, hs.frame, hs.nextGroup⟩
  | error he hs => exact .error he hs

theorem Both.ungroup {a a' : Expr} (ha : otherNodes.Both a a') (n : Node) :
    otherNodes.Both (.grouping n a) a' := by
  refine ⟨?_, fun l => ?_⟩
  · rw [Gen.value]
    exact links_typed ha.1 n
  · rw [Gen.test]
    exact links_routed (ha.2 l) n l

theorem both_ungroup (e : Expr) : otherNodes.Both e e.ungroup := by
  induction e with
  | literal n v => exact both_literal ⟨rfl, trivial⟩ v
  | var n x => exact both_var ⟨rfl, trivial⟩ rfl
  | unary n op a ih => exact ih.unary ⟨rfl, trivial⟩ trivial op
  | binary n a op b iha ihb => exact iha.binary ihb ⟨rfl, trivial⟩ trivial op
  | logical n a op b iha ihb => exact iha.logical ihb ⟨rfl, trivial⟩ op
  | grouping n a ih => exact ih.ungroup n
  | assign n x a ih => exact ih.assign ⟨rfl, trivial⟩ rfl

/-- A value that is not used, unless it is that of an assignment in parentheses. -/
theorem discard_ungroup {e : Expr} (he : e.isWrappedAssign = false) :
    otherNodes.Links (Gen.discard e) (Gen.discard e.ungroup) := by
  cases hassign : e.isAssign with
  | true =>
      cases e with
      | assign n x a => exact (both_ungroup a).discard_assign ⟨rfl, trivial⟩ rfl
      | _ => cases hassign
  | false =>
      have hplain : e.ungroup.isAssign = false := by
        rw [e.isAssign_ungroup, hassign, he]
        rfl
      exact (both_ungroup e).discard hassign hplain

mutual

theorem stmt_ungroup : ∀ st : Stmt, st.assignsOpenly = true →
    otherNodes.Links (Gen.stmt st) (Gen.stmt st.ungroup)
  | .declare sp x e, _ => by
      rw [Stmt.ungroup, Gen.stmt, Gen.stmt]
      exact (both_ungroup e).1.declare trivial rfl
  | .print sp e, _ => by
      rw [Stmt.ungroup, Gen.stmt, Gen.stmt]
      exact (both_ungroup e).1.print
  | .read sp x, _ => by
      rw [Stmt.ungroup, Gen.stmt]
      exact read trivial rfl
  | .ifThen sp e yes, h => by
      rw [Stmt.assignsOpenly] at h
      rw [Stmt.ungroup, Gen.stmt, Gen.stmt]
      exact ifThen (both_ungroup e).2 (stmt_ungroup yes h)
  | .ifElse sp e yes no, h => by
      rw [Stmt.assignsOpenly, Bool.and_eq_true] at h
      rw [Stmt.ungroup, Gen.stmt, Gen.stmt]
      exact ifElse (both_ungroup e).2 (stmt_ungroup yes h.1) (stmt_ungroup no h.2)
  | .whileDo sp e body, h => by
      rw [Stmt.assignsOpenly] at h
      rw [Stmt.ungroup, Gen.stmt, Gen.stmt]
      exact whileDo (both_ungroup e).2 (stmt_ungroup body h)
  | .block sp ss, h => by
      rw [Stmt.assignsOpenly] at h
      rw [Stmt.ungroup, Gen.stmt, Gen.stmt]
      exact stmts_ungroup ss h
  | .expression sp e, h => by
      rw [Stmt.assignsOpenly, Bool.not_eq_true'] at h
      rw [Stmt.ungroup, Gen.stmt, Gen.stmt]
      exact discard_ungroup h

theorem stmts_ungroup : ∀ ss : List Stmt, Stmt.allAssignOpenly ss = true →
    otherNodes.Links (Gen.stmts ss) (Gen.stmts (Stmt.ungroupAll ss))
  | [], _ => by
      rw [Stmt.ungroupAll, Gen.stmts]
      exact Coupling.pure ()
  | st :: sts, h => by
      rw [Stmt.allAssignOpenly, Bool.and_eq_true] at h
      rw [Stmt.ungroupAll, Gen.stmts, Gen.stmts]
      exact (stmt_ungroup st h.1).bind fun _ => stmts_ungroup sts h.2

end

end Coupling

/-! ## Programs -/

namespace Generator

/--
**Parentheses do not matter.** Fresh passes over a program and over the program without its
groupings end alike, with success or with errors that differ in their lines at most, unless a
statement is an assignment in parentheses. They leave the same code, the same frame and the same
number of label groups, and so the same finished code.
-/
theorem generate_ungroup {p : Program} (h : p.assignsOpenly = true) :
    ∃ r r' g g', empty.generate p = (r, g) ∧ empty.generate p.ungroup = (r', g') ∧
      r'.mapError CodeError.unlined = r.mapError CodeError.unlined ∧
      g'.items = g.items ∧ g'.nextGroup = g.nextGroup ∧ g'.frame = g.frame ∧
      g'.finish = g.finish := by
  have hends := Coupling.stmts_ungroup p.stmts h empty empty ⟨rfl, rfl, rfl⟩
  change Coupling.Ends _ (empty.generate p) (empty.generate p.ungroup) at hends
  generalize empty.generate p = first at hends
  generalize empty.generate p.ungroup = second at hends
  cases hends with
  | ok hs =>
      exact ⟨_, _, _, _, rfl, rfl, rfl, congrArg List.reverse hs.code, hs.nextGroup, hs.frame,
        hs.finish⟩
  | error he hs =>
      exact ⟨_, _, _, _, rfl, rfl, congrArg Except.error he, congrArg List.reverse hs.code,
        hs.nextGroup, hs.frame, hs.finish⟩

/-- Groupings around a condition, an operand and a negated text, which is refused. -/
def wrapped : Program where
  span := default
  stmts := [
    .declare default "x" (.grouping ⟨0, default⟩ (.literal ⟨1, default⟩ (.bool true))),
    .whileDo default
      (.grouping ⟨2, default⟩ (.logical ⟨3, default⟩ (.grouping ⟨4, default⟩ (.var ⟨5, default⟩ "x"))
        .or (.var ⟨6, default⟩ "x")))
      (.expression default (.assign ⟨7, default⟩ "x" (.grouping ⟨8, default⟩ (.unary ⟨9, default⟩ .not
        (.grouping ⟨10, default⟩ (.var ⟨11, default⟩ "x")))))),
    .print default (.unary ⟨12, default⟩ .neg (.grouping ⟨13, ⟨0, 0, 2, 1⟩⟩
      (.literal ⟨14, ⟨0, 0, 3, 1⟩⟩ (.string "text"))))]

/-- The same refusal at two lines, that of the parenthesis and that of the text. -/
theorem generate_ungroup_wrapped :
    ∃ g g', empty.generate wrapped = (.error ⟨.invalidOperand .neg .string, some 2⟩, g) ∧
      empty.generate wrapped.ungroup = (.error ⟨.invalidOperand .neg .string, some 3⟩, g') ∧
      g'.items = g.items ∧ g'.nextGroup = g.nextGroup ∧ g'.frame = g.frame := by
  have hfirst : (empty.generate wrapped).1 = .error ⟨.invalidOperand .neg .string, some 2⟩ := by
    decide +kernel
  have hsecond : (empty.generate wrapped.ungroup).1 =
      .error ⟨.invalidOperand .neg .string, some 3⟩ := by
    decide +kernel
  obtain ⟨r, r', g, g', hr, hr', _, hitems, hgroup, hframe, _⟩ :=
    generate_ungroup (p := wrapped) (by decide +kernel)
  rw [hr] at hfirst
  rw [hr'] at hsecond
  obtain rfl : r = _ := hfirst
  obtain rfl : r' = _ := hsecond
  exact ⟨g, g', hr, hr', hitems, hgroup, hframe⟩

/-- An assignment in parentheses keeps its value, only to drop it. -/
example :
    let x : Expr := .assign ⟨1, default⟩ "x" (.literal ⟨2, default⟩ (.bool false))
    let program (e : Expr) : Program :=
      ⟨[.declare default "x" (.literal ⟨0, default⟩ (.bool true)), .expression default e], default⟩
    (empty.generate (program (.grouping ⟨3, default⟩ x))).2.items.drop 2 =
        [.op (.iconst 0), .op .dup, .op (.store .bool 1), .op .pop] ∧
      (empty.generate (program x)).2.items.drop 2 = [.op (.iconst 0), .op (.store .bool 1)] := by
  decide +kernel

end Generator

end Dam
