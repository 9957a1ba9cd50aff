import Dam.Compile
import Dam.Proofs.UnplacedParsing

/-!
# Layout does not matter

Two texts with the same tokens are the same program, however they are laid out. Places
and node numbers go everywhere the tokens go: spans are merged in every node, numbers
key two tables, and a line is at hand wherever a program can be refused. The main
statement, `compile_of_kinds`, is that none of this is ever looked at: texts with the
same kinds of tokens are compiled to the same class text, or refused with the same
words.

The pass over a program without places is the pass over the program with its lines
taken away (`Gen.unlined`), and taking lines away commutes with every step of the pass.
Node numbers are not touched: the parser deals them out in the same order whatever the
layout is (`parse_unplaced`).
-/

namespace Dam

/-- The error without its line. -/
def CodeError.unlined (e : CodeError) : CodeError := ⟨e.fault, e.line.map fun _ => 0⟩

/-! ## Steps of the pass -/

namespace Gen

variable {α β : Type}

/-- The step with errors that have no line. -/
def unlined (m : Gen α) : Gen α := m.adapt CodeError.unlined

@[simp] theorem unlined_pure (a : α) : unlined (pure a) = pure a := rfl

@[simp] theorem unlined_bind (m : Gen α) (f : α → Gen β) :
    unlined (m >>= f) = unlined m >>= fun a => unlined (f a) := by
  have hrun {γ : Type} (m : Gen γ) (g : Generator) :
      unlined m g = ((m g).1.mapError CodeError.unlined, (m g).2) := rfl
  funext g
  rw [hrun]
  simp only [bind, ExceptT.bind, ExceptT.mk, StateT.bind, hrun]
  rcases m g with ⟨e | a, g'⟩ <;> rfl

@[simp] theorem unlined_map (f : α → β) (m : Gen α) : unlined (f <$> m) = f <$> unlined m := by
  rw [map_eq_pure_bind, map_eq_pure_bind, unlined_bind]
  rfl

@[simp] theorem unlined_refuse (line : Nat) (fault : CodeFault) :
    unlined (refuse line fault : Gen α) = refuse 0 fault := rfl

@[simp] theorem unlined_orRefuse (line : Nat) (fault : CodeFault) (o : Option α) :
    unlined (orRefuse line fault o) = orRefuse 0 fault o := by
  cases o <;> rfl

@[simp] theorem unlined_emit (i : Instr) : unlined (emit i) = emit i := rfl

@[simp] theorem unlined_place (l : Label) : unlined (place l) = place l := rfl

@[simp] theorem unlined_record (id : Nat) (τ : ValueType) :
    unlined (record id τ) = record id τ := rfl

@[simp] theorem unlined_register (id : Nat) (l : Label) :
    unlined (register id l) = register id l := rfl

@[simp] theorem unlined_newGroup : unlined newGroup = newGroup := rfl

@[simp] theorem unlined_onFrame (f : Frame → α × Frame) : unlined (onFrame f) = onFrame f := rfl

@[simp] theorem unlined_ite {p : Prop} [Decidable p] (m m' : Gen α) :
    unlined (if p then m else m') = if p then unlined m else unlined m' := by
  split <;> rfl

/-! ## Pieces of code -/

variable (n : Node) (line : Nat) (target : Label) (x : String) (m m' : Gen ValueType)
  (t t' : Label → Gen Unit)

@[simp] theorem unlined_typed : unlined (typed n m) = typed (n.bare fun i => i) (unlined m) := by
  simp [typed, Node.bare]

@[simp] theorem unlined_routed (m : Gen Unit) :
    unlined (routed n target m) = routed (n.bare fun i => i) target (unlined m) := by
  simp [routed, Node.bare]

@[simp] theorem unlined_testValue :
    unlined (testValue line target m) = testValue 0 target (unlined m) := by
  simp [testValue]

@[simp] theorem unlined_materialize :
    unlined (materialize t) = materialize fun l => unlined (t l) := by
  simp [materialize]

@[simp] theorem unlined_pushLiteral (l : Literal) :
    unlined (pushLiteral line l) = pushLiteral 0 l := by
  cases l <;> simp [pushLiteral]

@[simp] theorem unlined_pushVariable : unlined (pushVariable line x) = pushVariable 0 x := by
  simp [pushVariable]

@[simp] theorem unlined_assign (keep : Bool) :
    unlined (assign keep line x m) = assign keep 0 x (unlined m) := by
  simp [assign]

@[simp] theorem unlined_applyUnary (op : UnaryOp) :
    unlined (applyUnary op line m) = applyUnary op 0 (unlined m) := by
  simp only [applyUnary, unlined_bind]
  congr 1
  funext τ
  cases op <;> cases τ <;> simp

@[simp] theorem unlined_applyArith (op : ArithOp) :
    unlined (applyArith op line m m') = applyArith op 0 (unlined m) (unlined m') := by
  simp only [applyArith, unlined_bind]
  congr 1
  funext l
  congr 1
  funext r
  split <;> simp

@[simp] theorem unlined_branchUnless (c : Comparison) (τ : ValueType) :
    unlined (branchUnless c target τ) = branchUnless c target τ := by
  cases τ <;> simp [branchUnless]

@[simp] theorem unlined_testCompare (c : Comparison) :
    unlined (testCompare c line m m' target) = testCompare c 0 (unlined m) (unlined m') target := by
  simp [testCompare]

@[simp] theorem unlined_testLogical (op : LogicalOp) :
    unlined (testLogical op t t' target) =
      testLogical op (fun l => unlined (t l)) (fun l => unlined (t' l)) target := by
  cases op <;> simp [testLogical, testBoth, testEither]

/-! ## Both positions -/

theorem value_test_unplaced (e : Expr) :
    value e.unplaced = unlined (value e) ∧ ∀ l, test e.unplaced l = unlined (test e l) := by
  induction e with
  | literal n v => simp [value, test, Expr.bare]
  | var n x => simp [value, test, Expr.bare]
  | unary n op a ih => simp [value, test, Expr.bare, ih]
  | binary n a op b iha ihb =>
      cases op with
      | arith op => simp [value, test, Expr.bare, iha, ihb]
      | compare c => simp [value, test, Expr.bare, iha, ihb]
  | logical n a op b iha ihb =>
      have ha : test a.unplaced = fun l => unlined (test a l) := funext iha.2
      have hb : test b.unplaced = fun l => unlined (test b l) := funext ihb.2
      simp [value, test, Expr.bare, ha, hb]
  | grouping n a ih => simp [value, test, Expr.bare, ih]
  | assign n x a ih => simp [value, test, Expr.bare, ih]

@[simp] theorem value_unplaced (e : Expr) : value e.unplaced = unlined (value e) :=
  (value_test_unplaced e).1

@[simp] theorem test_unplaced (e : Expr) : test e.unplaced = fun l => unlined (test e l) :=
  funext (value_test_unplaced e).2

/-! ## Statements -/

@[simp] theorem unlined_declare : unlined (declare line x m) = declare 0 x (unlined m) := by
  simp [declare]

@[simp] theorem unlined_print : unlined (print m) = print (unlined m) := by
  simp [print]

@[simp] theorem unlined_read : unlined (read line x) = read 0 x := by
  simp [read]

@[simp] theorem unlined_ifThen (yes : Gen Unit) :
    unlined (ifThen t yes) = ifThen (fun l => unlined (t l)) (unlined yes) := by
  simp [ifThen]

@[simp] theorem unlined_ifElse (yes no : Gen Unit) :
    unlined (ifElse t yes no) = ifElse (fun l => unlined (t l)) (unlined yes) (unlined no) := by
  simp [ifElse]

@[simp] theorem unlined_whileDo (body : Gen Unit) :
    unlined (whileDo t body) = whileDo (fun l => unlined (t l)) (unlined body) := by
  simp [whileDo]

@[simp] theorem discard_unplaced (e : Expr) : discard e.unplaced = unlined (discard e) := by
  cases e with
  | assign n x a => simp [discard, Expr.bare, value_unplaced]
  | literal | var | unary | binary | logical | grouping =>
      simp only [discard, unlined_bind, unlined_emit, ← value_unplaced]
      rfl

mutual

theorem stmt_unplaced : ∀ st : Stmt, stmt st.unplaced = unlined (stmt st)
  | .declare _ x e => by simp [stmt, Stmt.bare]
  | .print _ e => by simp [stmt, Stmt.bare]
  | .read _ x => by simp [stmt, Stmt.bare]
  | .ifThen _ e yes => by simp [stmt, Stmt.bare, stmt_unplaced yes]
  | .ifElse _ e yes no => by simp [stmt, Stmt.bare, stmt_unplaced yes, stmt_unplaced no]
  | .whileDo _ e body => by simp [stmt, Stmt.bare, stmt_unplaced body]
  | .block _ ss => by simp [stmt, Stmt.bare, stmts_unplaced ss]
  | .expression _ e => by simp [stmt, Stmt.bare]

theorem stmts_unplaced : ∀ ss : List Stmt, stmts (ss.map Stmt.unplaced) = unlined (stmts ss)
  | [] => rfl
  | st :: ss => by simp [stmts, stmt_unplaced st, stmts_unplaced ss]

end

end Gen

/-! ## Whole programs -/

/-- Without places, a program has the same assembly, or is refused for the same fault. -/
theorem Program.assemble_unplaced (p : Program) :
    p.unplaced.assemble = p.assemble.mapError CodeError.unlined := by
  have hrun : Generator.empty.generate p.unplaced =
      ((Generator.empty.generate p).1.mapError CodeError.unlined,
        (Generator.empty.generate p).2) := by
    unfold Generator.generate
    have hstmts : p.unplaced.stmts = p.stmts.map Stmt.unplaced := rfl
    rw [hstmts, Gen.stmts_unplaced]
    rfl
  unfold assemble
  rw [hrun]
  rcases Generator.empty.generate p with ⟨e | _, g⟩
  · rfl
  · change g.finish = g.finish.mapError CodeError.unlined
    unfold Generator.finish
    cases Assembly.ofItems g.finishedItems g.frame.locals <;> rfl

theorem Token.unplaced_eq_of_kinds {tokens₁ tokens₂ : List Token}
    (h : tokens₁.map Token.kind = tokens₂.map Token.kind) :
    tokens₁.map Token.unplaced = tokens₂.map Token.unplaced := by
  have hmap (tokens : List Token) :
      tokens.map Token.unplaced = (tokens.map Token.kind).map fun k => ⟨k, .synthetic⟩ := by
    rw [List.map_map]
    rfl
  rw [hmap, hmap, h]

/-- The errors are of one kind and have the same faults, at places that may differ. -/
inductive CompileError.Alike : CompileError → CompileError → Prop
  | parse {es₁ es₂ : List ParseError}
      (h : es₁.map ParseError.fault = es₂.map ParseError.fault) : Alike (.parse es₁) (.parse es₂)
  | code {fault : CodeFault} {line₁ line₂ : Option Nat} (h : line₁.isSome = line₂.isSome) :
      Alike (.code ⟨fault, line₁⟩) (.code ⟨fault, line₂⟩)

/-- Alike errors have the same messages, in the same order. -/
theorem CompileError.Alike.messages {e₁ e₂ : CompileError} (h : e₁.Alike e₂) :
    e₁.diagnostics.map Diagnostic.message = e₂.diagnostics.map Diagnostic.message := by
  cases h with
  | @parse es₁ es₂ h =>
      have hmap (es : List ParseError) :
          (CompileError.parse es).diagnostics.map Diagnostic.message =
            (es.map ParseError.fault).map ParseFault.message := by
        simp [diagnostics, Function.comp_def]
      rw [hmap, hmap, h]
  | code h => rfl

/-- Results that are equal after a change of their values and errors are of the same kind. -/
theorem eq_or_eq_of_map_eq {ε ε' α α' : Type} {x y : Except ε α} {f : α → α'} {g : ε → ε'}
    (h : (x.map f).mapError g = (y.map f).mapError g) :
    (∃ a b, x = .ok a ∧ y = .ok b ∧ f a = f b) ∨
      ∃ d e, x = .error d ∧ y = .error e ∧ g d = g e := by
  rcases x with d | a <;> rcases y with e | b
  · exact .inr ⟨d, e, rfl, rfl, Except.error.inj h⟩
  · cases h
  · cases h
  · exact .inl ⟨a, b, rfl, rfl, Except.ok.inj h⟩

/-- Tokens of the same kinds form programs that differ in places alone, or have the same
faults. -/
theorem parse_alike {tokens₁ tokens₂ : List Token}
    (h : tokens₁.map Token.kind = tokens₂.map Token.kind) :
    (∃ p₁ p₂, parse tokens₁ = .ok p₁ ∧ parse tokens₂ = .ok p₂ ∧ p₁.unplaced = p₂.unplaced) ∨
      ∃ es₁ es₂, parse tokens₁ = .error es₁ ∧ parse tokens₂ = .error es₂ ∧
        CompileError.Alike (.parse es₁) (.parse es₂) := by
  have hboth := congrArg parse (Token.unplaced_eq_of_kinds h)
  rw [parse_unplaced, parse_unplaced] at hboth
  refine (eq_or_eq_of_map_eq hboth).imp_right ?_
  rintro ⟨es₁, es₂, h₁, h₂, hfaults⟩
  refine ⟨es₁, es₂, h₁, h₂, .parse ?_⟩
  simpa [Function.comp_def, ParseError.unplaced] using congrArg (List.map ParseError.fault) hfaults

/-- Programs that differ in places alone have the same assembly, or are refused alike. -/
theorem Program.assemble_alike {p₁ p₂ : Program} (h : p₁.unplaced = p₂.unplaced) :
    (∃ a, p₁.assemble = .ok a ∧ p₂.assemble = .ok a) ∨
      ∃ e₁ e₂, p₁.assemble = .error e₁ ∧ p₂.assemble = .error e₂ ∧
        CompileError.Alike (.code e₁) (.code e₂) := by
  have hboth := congrArg assemble h
  rw [assemble_unplaced, assemble_unplaced, ← id_eq p₁.assemble, ← id_eq p₂.assemble,
    ← Except.map_id] at hboth
  rcases eq_or_eq_of_map_eq hboth with ⟨a, b, h₁, h₂, hab⟩ | ⟨e₁, e₂, h₁, h₂, he⟩
  · exact .inl ⟨a, h₁, h₂.trans (congrArg Except.ok hab.symm)⟩
  · obtain ⟨fault, line₁⟩ := e₁
    obtain ⟨fault', line₂⟩ := e₂
    simp only [CodeError.unlined, CodeError.mk.injEq] at he
    obtain ⟨rfl, hline⟩ := he
    refine .inr ⟨_, _, h₁, h₂, .code ?_⟩
    simpa using congrArg Option.isSome hline

theorem compile_of_lex {source className : String} {sourceFile : Option String}
    {tokens : List Token} (h : lex source = .ok tokens) :
    compile source className sourceFile =
      match parse tokens with
      | .error es => .error (.parse es)
      | .ok p =>
        match p.assemble with
        | .error e => .error (.code e)
        | .ok a => .ok (a.classText className sourceFile) := by
  rw [compile_eq, assemble_eq, h]
  dsimp only
  cases parse tokens with
  | error es => rfl
  | ok p =>
      dsimp only
      cases p.assemble <;> rfl

/--
**Compilation depends on the kinds of the tokens alone.** Texts with the same kinds of
tokens have the same class text, or are refused with errors of one kind, as many of
them, and with the same messages.
-/
theorem compile_of_kinds {source₁ source₂ : String} {tokens₁ tokens₂ : List Token}
    (h₁ : lex source₁ = .ok tokens₁) (h₂ : lex source₂ = .ok tokens₂)
    (hkinds : tokens₁.map Token.kind = tokens₂.map Token.kind)
    (className : String) (sourceFile : Option String) :
    (∃ text, compile source₁ className sourceFile = .ok text ∧
        compile source₂ className sourceFile = .ok text) ∨
      ∃ e₁ e₂, compile source₁ className sourceFile = .error e₁ ∧
        compile source₂ className sourceFile = .error e₂ ∧ e₁.Alike e₂ ∧
        e₁.diagnostics.map Diagnostic.message = e₂.diagnostics.map Diagnostic.message := by
  rw [compile_of_lex h₁, compile_of_lex h₂]
  rcases parse_alike hkinds with ⟨p₁, p₂, hp₁, hp₂, hp⟩ | ⟨es₁, es₂, hp₁, hp₂, he⟩
  · rcases Program.assemble_alike hp with ⟨a, ha₁, ha₂⟩ | ⟨e₁, e₂, ha₁, ha₂, he⟩
    · simp only [hp₁, hp₂, ha₁, ha₂]
      exact .inl ⟨_, rfl, rfl⟩
    · simp only [hp₁, hp₂, ha₁, ha₂]
      exact .inr ⟨_, _, rfl, rfl, he, he.messages⟩
  · simp only [hp₁, hp₂]
    exact .inr ⟨_, _, rfl, rfl, he, he.messages⟩

/-- Two faults of syntax, and the same two in a text with other lines. -/
theorem compile_of_kinds_two_faults :
    ∃ e₁ e₂, compile "print ; let = x;" "A" none = .error e₁ ∧
      compile "print // nothing\n;\n\nlet\n =x;" "A" none = .error e₂ ∧ e₁.Alike e₂ := by
  have hkinds : (lex "print ; let = x;").toOption.map (List.map Token.kind) =
      (lex "print // nothing\n;\n\nlet\n =x;").toOption.map (List.map Token.kind) := by
    decide +kernel
  have hlex₁ : (lex "print ; let = x;").isOk = true := by decide +kernel
  have hlex₂ : (lex "print // nothing\n;\n\nlet\n =x;").isOk = true := by decide +kernel
  have hrefused : (compile "print ; let = x;" "A" none).isOk = false := by decide +kernel
  cases h₁ : lex "print ; let = x;" with
  | error e => rw [h₁] at hlex₁; cases hlex₁
  | ok tokens₁ =>
      cases h₂ : lex "print // nothing\n;\n\nlet\n =x;" with
      | error e => rw [h₂] at hlex₂; cases hlex₂
      | ok tokens₂ =>
          rw [h₁, h₂] at hkinds
          rcases compile_of_kinds h₁ h₂ (Option.some.inj hkinds) "A" none with
            ⟨text, hok, _⟩ | ⟨e₁, e₂, he₁, he₂, halike, _⟩
          · rw [hok] at hrefused; cases hrefused
          · exact ⟨e₁, e₂, he₁, he₂, halike⟩

end Dam
