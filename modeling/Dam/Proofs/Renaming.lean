import Dam.Proofs.Coupling
import Mathlib.Data.List.Basic
import Mathlib.Data.Set.Function

/-!
# Names do not matter

A name is used to find a variable in the frame, and for nothing else: not for its slot,
which is the next one when it is declared, and not in the code. So a program with other
names, where different names stay different, has the same code. This is a statement about
two runs of the pass. Their frames differ in the names that index them, and so do the
names that the pass complains about.

The names of a program are all that matters of the renaming, so it need not be injective
elsewhere. That is what the frames are compared on (`Frame.Renamed`), and the pass asks
for no other names.
-/

namespace Dam

/-! ## Other names -/

namespace Expr

/-- The names in an expression. -/
def names : Expr → List String
  | literal _ _ => []
  | var _ x => [x]
  | unary _ _ a | grouping _ a => a.names
  | binary _ l _ r | logical _ l _ r => l.names ++ r.names
  | assign _ x a => x :: a.names

/-- The expression with other names. -/
def rename (f : String → String) : Expr → Expr
  | literal n v => literal n v
  | var n x => var n (f x)
  | unary n op a => unary n op (a.rename f)
  | binary n l op r => binary n (l.rename f) op (r.rename f)
  | logical n l op r => logical n (l.rename f) op (r.rename f)
  | grouping n a => grouping n (a.rename f)
  | assign n x a => assign n (f x) (a.rename f)

@[simp] theorem node_rename (f : String → String) (e : Expr) : (e.rename f).node = e.node := by
  cases e <;> rfl

@[simp] theorem line_rename (f : String → String) (e : Expr) : (e.rename f).line = e.line := by
  rw [line, node_rename]
  rfl

end Expr

namespace Stmt

mutual

/-- The names in a statement. -/
def names : Stmt → List String
  | declare _ x e => x :: e.names
  | print _ e | expression _ e => e.names
  | read _ x => [x]
  | ifThen _ e yes => e.names ++ yes.names
  | ifElse _ e yes no => e.names ++ yes.names ++ no.names
  | whileDo _ e body => e.names ++ body.names
  | block _ ss => namesAll ss

/-- The names in statements. -/
def namesAll : List Stmt → List String
  | [] => []
  | st :: sts => st.names ++ namesAll sts

end

mutual

/-- The statement with other names. -/
def rename (f : String → String) : Stmt → Stmt
  | declare sp x e => declare sp (f x) (e.rename f)
  | print sp e => print sp (e.rename f)
  | read sp x => read sp (f x)
  | ifThen sp e yes => ifThen sp (e.rename f) (yes.rename f)
  | ifElse sp e yes no => ifElse sp (e.rename f) (yes.rename f) (no.rename f)
  | whileDo sp e body => whileDo sp (e.rename f) (body.rename f)
  | block sp ss => block sp (renameAll f ss)
  | expression sp e => expression sp (e.rename f)

/-- Statements with other names. -/
def renameAll (f : String → String) : List Stmt → List Stmt
  | [] => []
  | st :: sts => st.rename f :: renameAll f sts

end

end Stmt

/-- The names in a program. -/
def Program.names (p : Program) : List String := Stmt.namesAll p.stmts

/-- The program with other names. -/
def Program.rename (f : String → String) (p : Program) : Program :=
  ⟨Stmt.renameAll f p.stmts, p.span⟩

/-- The fault with another name, if it is about a variable. -/
def CodeFault.rename (f : String → String) : CodeFault → CodeFault
  | undefinedVariable x => undefinedVariable (f x)
  | fault => fault

/-- The error with another name, if it is about a variable. -/
def CodeError.rename (f : String → String) (e : CodeError) : CodeError :=
  ⟨e.fault.rename f, e.line⟩

theorem CodeFault.rename_of_name? {f : String → String} {fault : CodeFault}
    (h : fault.name? = none) : fault.rename f = fault := by
  cases fault with
  | undefinedVariable x => cases h
  | _ => rfl

/-! ## Frames with other names -/

namespace Frame

/-- The frame `F'` has the variables of `F` under other names. Both are asked for `names` only. -/
structure Renamed (f : String → String) (names : List String) (F F' : Frame) : Prop where
  table : ∀ x ∈ names, F'.table[f x]? = F.table[x]?
  declared : F'.declared = F.declared.map f
  mem : ∀ x ∈ F.declared, x ∈ names
  allocated : F'.allocated = F.allocated
  scanner : F'.scanner = F.scanner

namespace Renamed

variable {f : String → String} {names : List String} {F F' : Frame} {x : String}

theorem empty : Renamed f names .empty .empty := by
  refine ⟨fun x hx => ?_, rfl, fun x hx => ?_, rfl, rfl⟩
  · simp [Frame.empty]
  · cases hx

/-- An entry is found under its own name alone. -/
theorem insert (h : Renamed f names F F') (hf : Set.InjOn f {x | x ∈ names}) (hx : x ∈ names)
    (v : Variable) (y : String) (hy : y ∈ names) :
    (F'.table.insert (f x) v)[f y]? = (F.table.insert x v)[y]? := by
  rw [Std.TreeMap.getElem?_insert, Std.TreeMap.getElem?_insert]
  by_cases heq : x = y
  · subst heq
    simp
  · have hne : f x ≠ f y := fun hc => heq (hf hx hy hc)
    rw [if_neg (fun hc => hne (Std.LawfulEqCmp.compare_eq_iff_eq.mp hc)),
      if_neg (fun hc => heq (Std.LawfulEqCmp.compare_eq_iff_eq.mp hc))]
    exact h.table y hy

theorem nextSlot? (h : Renamed f names F F') : F'.nextSlot? = F.nextSlot? := by
  unfold Frame.nextSlot?
  rw [h.allocated]

theorem assign (h : Renamed f names F F') (hf : Set.InjOn f {x | x ∈ names}) (hx : x ∈ names)
    (τ : ValueType) :
    (F'.assign (f x) τ).1 = (F.assign x τ).1 ∧
      Renamed f names (F.assign x τ).2 (F'.assign (f x) τ).2 := by
  unfold Frame.assign
  rw [h.table x hx]
  cases F.table[x]? with
  | none => exact ⟨rfl, h⟩
  | some v => exact ⟨rfl, h.insert hf hx _, h.declared, h.mem, h.allocated, h.scanner⟩

theorem define (h : Renamed f names F F') (hf : Set.InjOn f {x | x ∈ names}) (hx : x ∈ names)
    (τ : ValueType) :
    (F'.define (f x) τ).1 = (F.define x τ).1 ∧
      Renamed f names (F.define x τ).2 (F'.define (f x) τ).2 := by
  unfold Frame.define
  rw [h.table x hx, h.nextSlot?]
  cases F.table[x]? with
  | some v => exact ⟨rfl, h.insert hf hx _, h.declared, h.mem, h.allocated, h.scanner⟩
  | none =>
      cases F.nextSlot? with
      | none => exact ⟨rfl, h⟩
      | some slot =>
          -- the slot is the next one, whatever the name is
          refine ⟨rfl, h.insert hf hx _, ?_, ?_, ?_, h.scanner⟩
          · show f x :: F'.declared = (x :: F.declared).map f
            rw [h.declared, List.map_cons]
          · intro y hy
            rcases List.mem_cons.mp hy with rfl | hy
            · exact hx
            · exact h.mem y hy
          · show F'.allocated + 1 = F.allocated + 1
            rw [h.allocated]

theorem useScanner (h : Renamed f names F F') :
    F'.useScanner.1 = F.useScanner.1 ∧ Renamed f names F.useScanner.2 F'.useScanner.2 := by
  unfold Frame.useScanner
  rw [h.scanner, h.nextSlot?]
  cases hs : F.scanner with
  | some slot => exact ⟨rfl, h⟩
  | none =>
      cases F.nextSlot? with
      | none => exact ⟨rfl, h⟩
      | some slot =>
          refine ⟨rfl, h.table, h.declared, h.mem, ?_, rfl⟩
          show F'.allocated + 1 = F.allocated + 1
          rw [h.allocated]

theorem locals (h : Renamed f names F F') : F'.locals = F.locals := by
  unfold Frame.locals
  rw [h.allocated]

/-- The variables in order: other names, the same types and slots. -/
theorem toList (h : Renamed f names F F') :
    F'.toList = F.toList.map fun entry => (f entry.1, entry.2) := by
  unfold Frame.toList
  rw [h.declared, ← List.map_reverse, List.filterMap_map, List.map_filterMap]
  refine List.filterMap_congr fun x hx => ?_
  have hmem : x ∈ names := h.mem x (List.mem_reverse.mp hx)
  rw [Function.comp_apply, h.table x hmem, Option.map_map]
  rfl

end Renamed

end Frame

/-! ## The pass -/

/-- The states differ in the names of the variables alone. -/
structure Generator.Renamed (f : String → String) (names : List String) (g g' : Generator) :
    Prop where
  code : g'.code = g.code
  types : g'.types = g.types
  targets : g'.targets = g.targets
  nextGroup : g'.nextGroup = g.nextGroup
  frame : g.frame.Renamed f names g'.frame

namespace Generator.Renamed

variable {f : String → String} {names : List String} {g g' : Generator}

theorem finish (h : Renamed f names g g') : g'.finish = g.finish := by
  have hitems : g'.items = g.items := by
    unfold items
    rw [h.code]
  have hfinished : g'.finishedItems = g.finishedItems := by
    unfold finishedItems
    rw [h.frame.scanner, hitems]
  unfold Generator.finish
  rw [hfinished, h.frame.locals]

end Generator.Renamed

/-- A pass over a program and a pass over the program with other names. -/
def Coupling.otherNames {f : String → String} {names : List String}
    (hf : Set.InjOn f {x | x ∈ names}) : Coupling where
  States := Generator.Renamed f names
  Names x x' := x ∈ names ∧ x' = f x
  Lines := Eq
  Errors e e' := e' = e.rename f
  push := by
    intro g g' h x
    exact ⟨congrArg (x :: ·) h.code, h.types, h.targets, h.nextGroup, h.frame⟩
  note := by
    intro g g' h id τ
    exact ⟨h.code, congrArg (·.insert id τ) h.types, h.targets, h.nextGroup, h.frame⟩
  aim := by
    intro g g' h id t
    exact ⟨h.code, h.types, congrArg (·.insert id t) h.targets, h.nextGroup, h.frame⟩
  group := fun h => h.nextGroup
  next := by
    intro g g' h
    exact ⟨h.code, h.types, h.targets, congrArg (· + 1) h.nextGroup, h.frame⟩
  lookUp := by
    rintro g g' x x' h ⟨hx, rfl⟩
    exact h.frame.table x hx
  assign := by
    rintro g g' x x' h ⟨hx, rfl⟩ τ
    obtain ⟨hslot, hframe⟩ := h.frame.assign hf hx τ
    exact ⟨hslot, h.code, h.types, h.targets, h.nextGroup, hframe⟩
  define := by
    rintro g g' x x' h ⟨hx, rfl⟩ τ
    obtain ⟨hslot, hframe⟩ := h.frame.define hf hx τ
    exact ⟨hslot, h.code, h.types, h.targets, h.nextGroup, hframe⟩
  useScanner := by
    intro g g' h
    obtain ⟨hslot, hframe⟩ := h.frame.useScanner
    exact ⟨hslot, h.code, h.types, h.targets, h.nextGroup, hframe⟩
  fault := by
    rintro line line' rfl fault hfault
    rw [CodeError.rename, CodeFault.rename_of_name? hfault]
  undefined := by
    rintro line line' x x' rfl ⟨_, rfl⟩
    rfl

namespace Coupling

variable {f : String → String} {names : List String} (hf : Set.InjOn f {x | x ∈ names})

theorem both_rename (e : Expr) (he : ∀ x ∈ e.names, x ∈ names) :
    (otherNames hf).Both e (e.rename f) := by
  induction e with
  | literal n v => exact both_literal ⟨rfl, rfl⟩ v
  | var n x =>
      have hx : x ∈ names := he x List.mem_cons_self
      exact both_var ⟨rfl, rfl⟩ ⟨hx, rfl⟩
  | unary n op a ih => exact (ih he).unary ⟨rfl, rfl⟩ (a.line_rename f).symm op
  | binary n a op b iha ihb =>
      have ha := iha fun x hx => he x (List.mem_append_left _ hx)
      have hb := ihb fun x hx => he x (List.mem_append_right _ hx)
      exact ha.binary hb ⟨rfl, rfl⟩ (a.line_rename f).symm op
  | logical n a op b iha ihb =>
      have ha := iha fun x hx => he x (List.mem_append_left _ hx)
      have hb := ihb fun x hx => he x (List.mem_append_right _ hx)
      exact ha.logical hb ⟨rfl, rfl⟩ op
  | grouping n a ih => exact (ih he).grouping ⟨rfl, rfl⟩
  | assign n x a ih =>
      have hx : x ∈ names := he x List.mem_cons_self
      have ha := ih fun y hy => he y (List.mem_cons_of_mem _ hy)
      exact ha.assign ⟨rfl, rfl⟩ ⟨hx, rfl⟩

theorem discard_rename (e : Expr) (he : ∀ x ∈ e.names, x ∈ names) :
    (otherNames hf).Links (Gen.discard e) (Gen.discard (e.rename f)) := by
  by_cases hassign : e.isAssign = true
  · cases e with
    | assign n x a =>
        have hx : x ∈ names := he x List.mem_cons_self
        have ha := both_rename hf a fun y hy => he y (List.mem_cons_of_mem _ hy)
        exact ha.discard_assign ⟨rfl, rfl⟩ ⟨hx, rfl⟩
    | _ => cases hassign
  · have hsame : (e.rename f).isAssign = e.isAssign := by cases e <;> rfl
    rw [Bool.not_eq_true] at hassign
    exact (both_rename hf e he).discard hassign (hsame.trans hassign)

mutual

theorem stmt_rename : ∀ (st : Stmt), (∀ x ∈ st.names, x ∈ names) →
    (otherNames hf).Links (Gen.stmt st) (Gen.stmt (st.rename f))
  | .declare sp x e, h => by
      rw [Stmt.names] at h
      rw [Stmt.rename, Gen.stmt, Gen.stmt]
      have he := both_rename hf e fun y hy => h y (List.mem_cons_of_mem _ hy)
      exact he.1.declare rfl ⟨h x List.mem_cons_self, rfl⟩
  | .print sp e, h => by
      rw [Stmt.names] at h
      rw [Stmt.rename, Gen.stmt, Gen.stmt]
      exact (both_rename hf e h).1.print
  | .read sp x, h => by
      rw [Stmt.names] at h
      rw [Stmt.rename, Gen.stmt, Gen.stmt]
      exact read rfl ⟨h x List.mem_cons_self, rfl⟩
  | .ifThen sp e yes, h => by
      rw [Stmt.names] at h
      rw [Stmt.rename, Gen.stmt, Gen.stmt]
      have he := both_rename hf e fun x hx => h x (List.mem_append_left _ hx)
      exact ifThen he.2 (stmt_rename yes fun x hx => h x (List.mem_append_right _ hx))
  | .ifElse sp e yes no, h => by
      rw [Stmt.names, List.append_assoc] at h
      rw [Stmt.rename, Gen.stmt, Gen.stmt]
      have he := both_rename hf e fun x hx => h x (List.mem_append_left _ hx)
      have hbranches := fun x hx => h x (List.mem_append_right _ hx)
      exact ifElse he.2 (stmt_rename yes fun x hx => hbranches x (List.mem_append_left _ hx))
        (stmt_rename no fun x hx => hbranches x (List.mem_append_right _ hx))
  | .whileDo sp e body, h => by
      rw [Stmt.names] at h
      rw [Stmt.rename, Gen.stmt, Gen.stmt]
      have he := both_rename hf e fun x hx => h x (List.mem_append_left _ hx)
      exact whileDo he.2 (stmt_rename body fun x hx => h x (List.mem_append_right _ hx))
  | .block sp ss, h => by
      rw [Stmt.names] at h
      rw [Stmt.rename, Gen.stmt, Gen.stmt]
      exact stmts_rename ss h
  | .expression sp e, h => by
      rw [Stmt.names] at h
      rw [Stmt.rename, Gen.stmt, Gen.stmt]
      exact discard_rename hf e h

theorem stmts_rename : ∀ (ss : List Stmt), (∀ x ∈ Stmt.namesAll ss, x ∈ names) →
    (otherNames hf).Links (Gen.stmts ss) (Gen.stmts (Stmt.renameAll f ss))
  | [], _ => by
      rw [Stmt.renameAll, Gen.stmts]
      exact Coupling.pure ()
  | st :: sts, h => by
      rw [Stmt.namesAll] at h
      rw [Stmt.renameAll, Gen.stmts, Gen.stmts]
      have hst := stmt_rename st fun x hx => h x (List.mem_append_left _ hx)
      exact hst.bind fun _ => stmts_rename sts fun x hx => h x (List.mem_append_right _ hx)

end

end Coupling

/-! ## Programs -/

namespace Generator

variable {p : Program} {f : String → String}

/-- Fresh passes over a program and over the program with other names. -/
theorem renamed_of_generate (hf : Set.InjOn f {x | x ∈ p.names}) :
    ∃ r g g', empty.generate p = (r, g) ∧
      empty.generate (p.rename f) = (r.mapError (CodeError.rename f), g') ∧
      Renamed f p.names g g' := by
  have hstart : Renamed f p.names empty empty := ⟨rfl, rfl, rfl, rfl, .empty⟩
  have hends := Coupling.stmts_rename hf p.stmts (fun x hx => hx) empty empty hstart
  change Coupling.Ends _ (empty.generate p) (empty.generate (p.rename f)) at hends
  generalize empty.generate p = first at hends
  generalize empty.generate (p.rename f) = second at hends
  cases hends with
  | ok hs => exact ⟨_, _, _, rfl, rfl, hs⟩
  | error he hs => exact ⟨_, _, _, rfl, Prod.ext (congrArg Except.error he) rfl, hs⟩

/--
**Names do not matter.** A fresh pass over a program with other names, where different names of
the program stay different, ends as the pass over the program does: with success, or with the same
error, which has the other name if it is about a variable. It leaves the same code, the same
types, targets and number of label groups, and the same variables in the same order, with the same
types and slots, under their other names. So the finished code and its limits are the same, too.
-/
theorem generate_rename (hf : Set.InjOn f {x | x ∈ p.names}) :
    ∃ r g g', empty.generate p = (r, g) ∧
      empty.generate (p.rename f) = (r.mapError (CodeError.rename f), g') ∧
      g'.items = g.items ∧ g'.types = g.types ∧ g'.targets = g.targets ∧
      g'.nextGroup = g.nextGroup ∧
      g'.frame.toList = (g.frame.toList.map fun entry => (f entry.1, entry.2)) ∧
      g'.frame.scanner = g.frame.scanner ∧ g'.frame.locals = g.frame.locals ∧
      g'.finish = g.finish := by
  obtain ⟨r, g, g', hfirst, hsecond, h⟩ := renamed_of_generate hf
  refine ⟨r, g, g', hfirst, hsecond, ?_⟩
  exact ⟨congrArg List.reverse h.code, h.types, h.targets, h.nextGroup, h.frame.toList,
    h.frame.scanner, h.frame.locals, h.finish⟩

/-- Two names of the greeting change places. -/
def swapNames (x : String) : String :=
  if x = "name" then "zero" else if x = "zero" then "name" else x

theorem generate_rename_greeting :
    ∃ g g', empty.generate .greeting = (.ok (), g) ∧
      empty.generate (Program.greeting.rename swapNames) = (.ok (), g') ∧ g'.items = g.items ∧
      g'.frame.toList = (g.frame.toList.map fun entry => (swapNames entry.1, entry.2)) ∧
      g'.finish = g.finish := by
  have hdistinct : ∀ x ∈ Program.greeting.names, ∀ y ∈ Program.greeting.names,
      swapNames x = swapNames y → x = y := by decide +kernel
  have hf : Set.InjOn swapNames {x | x ∈ Program.greeting.names} :=
    fun x hx y hy => hdistinct x hx y hy
  obtain ⟨a, ha⟩ := Program.greeting_assembles
  obtain ⟨g₀, hok, _⟩ := Program.assemble_eq_ok.mp ha
  obtain ⟨r, g, g', hfirst, hsecond, hitems, _, _, _, hlist, _, _, hfinish⟩ := generate_rename hf
  obtain rfl : r = .ok () := by rw [hok] at hfirst; exact (congrArg Prod.fst hfirst).symm
  exact ⟨g, g', hfirst, hsecond, hitems, hlist, hfinish⟩

end Generator

end Dam
