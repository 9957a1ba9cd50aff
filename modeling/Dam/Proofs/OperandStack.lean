import Dam.Proofs.ControlFlow

/-!
# Types on the operand stack

The assembler only counts the words on the operand stack. This file types them. An
instruction has a signature, the types it takes off the stack and those it puts there,
and `Instr.onStack?` runs it on a stack of types. Generated code is certified for
`Instr.onStack?`: `ExprCode.stacks` and `StmtCode.stacks` walk over the code of a phrase
on top of an arbitrary stack, and all ways into a label find the same types.

The certificate is the only one. `ExprCode.leaves` reads off any certificate that the
code of a value leaves its type, whatever else stands around it.
-/

namespace Dam

/-! ## Signatures -/

/-- The type of a word on the operand stack. A scanner is not usable before it is initialised. -/
inductive StackType where
  | float | string | int | printStream | inputStream | rawScanner | scanner
deriving DecidableEq, Repr, Inhabited

/-- The constructor of the scanner initialises every copy of the reference. -/
def StackType.initialised : StackType → StackType
  | rawScanner => scanner
  | t => t

/-- How the target machine holds a value. -/
def ValueType.kind : ValueType → StackType
  | .numeric => .float
  | .string => .string
  | .bool => .int

/-- The types on top of the stack that are taken off, and those that are put there instead. -/
structure Signature where
  takes : List StackType
  gives : List StackType
deriving DecidableEq, Repr

/-- The signatures of the methods that are called. -/
def Method.signature? (m : Method) : Option Signature :=
  if m = Gen.concat then some ⟨[.string, .string], [.string]⟩
  else if m = Gen.compareTo then some ⟨[.string, .string], [.int]⟩
  else if m = Gen.nextLine then some ⟨[.scanner], [.string]⟩
  else (ValueType.all.find? fun τ => m = Gen.println τ).map fun τ => ⟨[τ.kind, .printStream], []⟩

namespace Instr

/-- The signature of an instruction, unless it works on any type. -/
def signature? : Instr → Option Signature
  | ldcFloat _ => some ⟨[], [.float]⟩
  | ldcString _ => some ⟨[], [.string]⟩
  | iconst _ => some ⟨[], [.int]⟩
  | load τ _ => some ⟨[], [τ.kind]⟩
  | store τ _ => some ⟨[τ.kind], []⟩
  | loadRef _ => some ⟨[], [.scanner]⟩
  | storeRef _ => some ⟨[.scanner], []⟩
  | arith _ => some ⟨[.float, .float], [.float]⟩
  | fneg => some ⟨[.float], [.float]⟩
  | ixor => some ⟨[.int, .int], [.int]⟩
  | fcmpl | fcmpg => some ⟨[.float, .float], [.int]⟩
  | ifZero _ _ => some ⟨[.int], []⟩
  | ifInts _ _ => some ⟨[.int, .int], []⟩
  | goto _ => some ⟨[], []⟩
  | new c => if c = Gen.scannerClass then some ⟨[], [.rawScanner]⟩ else none
  | getStatic f d =>
    if getStatic f d = Gen.systemOut then some ⟨[], [.printStream]⟩
    else if getStatic f d = Gen.systemIn then some ⟨[], [.inputStream]⟩
    else none
  | invokeVirtual m => m.signature?
  | dup | pop | invokeSpecial _ => none

/-- Runs an instruction on a stack of types, top first. -/
def onStack? : Instr → List StackType → Option (List StackType)
  | dup, t :: σ => some (t :: t :: σ)
  | pop, _ :: σ => some σ
  | invokeSpecial m, .inputStream :: .rawScanner :: σ =>
    if m = Gen.scannerInit then some (σ.map StackType.initialised) else none
  | i, σ => do
    let sig ← i.signature?
    let rest ← σ.dropPrefix? sig.takes
    return sig.gives ++ rest

theorem onStack?_eq_some {i : Instr} {σ σ' : List StackType} (h : i.onStack? σ = some σ') :
    (∃ sig rest, i.signature? = some sig ∧ σ = sig.takes ++ rest ∧ σ' = sig.gives ++ rest) ∨
    (∃ t rest, i = dup ∧ σ = t :: rest ∧ σ' = t :: t :: rest) ∨
    (∃ t, i = pop ∧ σ = t :: σ') ∨
    (∃ rest, i = invokeSpecial Gen.scannerInit ∧ σ = .inputStream :: .rawScanner :: rest ∧
      σ' = rest.map StackType.initialised) := by
  unfold onStack? at h
  split at h
  · cases h; exact .inr (.inl ⟨_, _, rfl, rfl, rfl⟩)
  · cases h; exact .inr (.inr (.inl ⟨_, rfl, rfl⟩))
  · split at h
    · rename_i hm; subst hm; cases h; exact .inr (.inr (.inr ⟨_, rfl, rfl, rfl⟩))
    · cases h
  · simp only [Option.bind_eq_bind, Option.bind_eq_some_iff, Option.pure_def,
      Option.some.injEq, List.dropPrefix?_eq_some_iff, beq_iff_eq] at h
    obtain ⟨sig, hsig, rest, ⟨_, hσ, rfl⟩, hσ'⟩ := h
    exact .inl ⟨sig, rest, hsig, hσ, hσ'.symm⟩

theorem onStack?_of_signature {i : Instr} {sig : Signature} (h : i.signature? = some sig)
    (σ : List StackType) : i.onStack? (sig.takes ++ σ) = some (sig.gives ++ σ) := by
  unfold onStack?
  split
  · cases h
  · cases h
  · cases h
  · simp [h, List.dropPrefix?_append_of_beq]

end Instr

@[simp] theorem Method.signature?_compareTo :
    Gen.compareTo.signature? = some ⟨[.string, .string], [.int]⟩ := rfl

@[simp] theorem Method.signature?_nextLine :
    Gen.nextLine.signature? = some ⟨[.scanner], [.string]⟩ := rfl

@[simp] theorem Method.signature?_println (τ : ValueType) :
    (Gen.println τ).signature? = some ⟨[τ.kind, .printStream], []⟩ := by
  cases τ <;> rfl

theorem Literal.signature?_push {v : Literal} {i : Instr} {τ : ValueType}
    (h : v.push? = some (i, τ)) : i.signature? = some ⟨[], [τ.kind]⟩ := by
  cases v with
  | null => cases h
  | number x => cases h; rfl
  | string s => cases h; rfl
  | bool b => cases h; rfl

theorem Gen.signature?_arithInstr {op : ArithOp} {τ : ValueType} {i : Instr}
    (h : Gen.arithInstr? op τ = some i) : i.signature? = some ⟨[τ.kind, τ.kind], [τ.kind]⟩ := by
  rcases Gen.arithInstr?_cases h with ⟨rfl, rfl⟩ | ⟨rfl, rfl⟩ <;> rfl

theorem Gen.signature?_floatCompare (k : Comparison) :
    (Gen.floatCompare k).signature? = some ⟨[.float, .float], [.int]⟩ := by
  cases k <;> rfl

theorem Gen.target?_floatCompare (k : Comparison) : (Gen.floatCompare k).target? = none := by
  cases k <;> rfl

/-! ## Generated code is typed -/

namespace Code

/-- A walk that runs every instruction on a stack of types. -/
abbrev Types (Δ : Label → List StackType) :=
  Carries (fun i σ σ' => i.onStack? σ = some σ') Eq Δ

variable {Δ : Label → List StackType}

/-- An instruction that has a signature and jumps nowhere. -/
theorem Types.next {i : Instr} {sig : Signature} {σ₀ σ₁ : List StackType} (σ : List StackType)
    (h : i.signature? = some sig) (ht : i.target? = none) (hfrom : σ₀ = sig.takes ++ σ)
    (hto : σ₁ = sig.gives ++ σ) : Types Δ [] [.op i] σ₀ σ₁ := by
  subst hfrom hto
  exact Carries.next (i.onStack?_of_signature h σ) ht

/-- A conditional branch whose target expects the stack that is left. -/
theorem Types.branch {i : Instr} {l : Label} {σ : List StackType} (takes : List StackType)
    (h : i.signature? = some ⟨takes, []⟩) (ht : i.target? = some l) (hend : i.endsFlow = false)
    (hl : Δ l = σ) : Types Δ [l] [.op i] (takes ++ σ) σ :=
  Carries.branch (i.onStack?_of_signature h σ) ht hend hl.symm

theorem Types.fall {l : Label} {σ : List StackType} (hl : Δ l = σ) :
    Types Δ [] [.label l] σ σ := by
  subst hl
  exact Carries.fall rfl

theorem Types.turn {o : List Label} {a b : Label} {c : List Item} {σ σ₁ σ₂ : List StackType}
    (h : Types Δ o c σ σ₁) (hb : b ∈ o) (ha : Δ a = σ₁) (hl : Δ b = σ₂) :
    Types Δ (a :: o) (c ++ [.op (.goto a), .label b]) σ σ₂ :=
  hl ▸ Carries.turn h hb (Instr.onStack?_of_signature (i := .goto a) rfl σ₁) ha.symm

/-- The branch of a comparison takes two values. -/
theorem Types.compare {k : Comparison} {t : Label} {σ : List StackType} (τ : ValueType)
    (ht : Δ t = σ) : Types Δ [t] (k.branch t τ) (τ.kind :: τ.kind :: σ) σ := by
  cases τ with
  | numeric =>
      exact (Types.next σ (Gen.signature?_floatCompare k) (Gen.target?_floatCompare k) rfl
        rfl).append (Types.branch [.int] rfl rfl rfl ht)
  | string =>
      exact (Types.next (i := .invokeVirtual Gen.compareTo) σ rfl rfl rfl rfl).append
        (Types.branch [.int] rfl rfl rfl ht)
  | bool => exact Types.branch [.int, .int] rfl rfl rfl ht

end Code

/-- What an expression leaves on the stack. -/
def ExprPosition.leaves : ExprPosition → List StackType
  | value τ => [τ.kind]
  | test _ => []

@[simp] theorem ExprPosition.leaves_value (τ : ValueType) : (value τ).leaves = [τ.kind] := rfl

@[simp] theorem ExprPosition.leaves_test (t : Label) : (test t).leaves = [] := rfl

/--
**The code of an expression is typed on top of any stack**, and finds that stack at the
label it jumps to. The types at its own labels are listed along its code.
-/
theorem ExprCode.stacks {e : Expr} {pos : ExprPosition} {s s' : Scope}
    {ts : List (Nat × ValueType)} {c : List Item} (h : ExprCode e pos s s' ts c)
    (σ : List StackType) :
    ∃ Γ : List (Label × List StackType), Γ.map Prod.fst = Code.labels c ∧
      ∀ Δ, Code.Agrees Δ Γ → (∀ t ∈ pos.outer, Δ t = σ) →
        Code.Types Δ pos.outer c σ (pos.leaves ++ σ) := by
  induction h generalizing σ with
  | literal hv =>
      refine ⟨[], rfl, fun Δ _ _ => ?_⟩
      exact Code.Types.next σ (Literal.signature?_push hv) (Literal.target?_push hv) rfl rfl
  | var _ => exact ⟨[], rfl, fun Δ _ _ => Code.Types.next σ rfl rfl rfl rfl⟩
  | not _ ih =>
      obtain ⟨Γ, hkeys, hc⟩ := ih σ
      refine ⟨Γ, by simp [hkeys], fun Δ hΔ _ => ?_⟩
      have hone : Code.Types Δ [] [.op (.iconst 1)] (.int :: σ) (.int :: .int :: σ) :=
        Code.Types.next (.int :: σ) rfl rfl rfl rfl
      have hxor : Code.Types Δ [] [.op .ixor] (.int :: .int :: σ) (.int :: σ) :=
        Code.Types.next σ rfl rfl rfl rfl
      exact (hc Δ hΔ (by simp)).append (hone.append hxor)
  | neg _ ih =>
      obtain ⟨Γ, hkeys, hc⟩ := ih σ
      refine ⟨Γ, by simp [hkeys], fun Δ hΔ _ => ?_⟩
      exact (hc Δ hΔ (by simp)).append (Code.Types.next σ rfl rfl rfl rfl)
  | @arith n l r op τ i s s₁ s₂ ts₁ ts₂ c₁ c₂ _ _ hi ih₁ ih₂ =>
      obtain ⟨Γ₁, hkeys₁, hc₁⟩ := ih₁ σ
      obtain ⟨Γ₂, hkeys₂, hc₂⟩ := ih₂ (τ.kind :: σ)
      refine ⟨Γ₁ ++ Γ₂, by simp [hkeys₁, hkeys₂], fun Δ hΔ _ => ?_⟩
      obtain ⟨hΔ₁, hΔ₂⟩ := (Code.agrees_append Δ Γ₁ Γ₂).mp hΔ
      exact ((hc₁ Δ hΔ₁ (by simp)).append (hc₂ Δ hΔ₂ (by simp))).append
        (Code.Types.next σ (Gen.signature?_arithInstr hi) (Gen.target?_arithInstr hi) rfl rfl)
  | @materialize e s s' ts c _ _ ih =>
      obtain ⟨Γ, hkeys, hc⟩ := ih σ
      refine ⟨Γ ++ [(.numbered "FALSE" s.group, σ), (.numbered "BOOL_END" s.group, .int :: σ)],
        by simp [hkeys, materializeCode], fun Δ hΔ _ => ?_⟩
      simp only [Code.agrees_append, Code.agrees_cons, Code.agrees_nil, and_true] at hΔ
      obtain ⟨hΔ, hfalse, hend⟩ := hΔ
      have htest := hc Δ hΔ (by simp [hfalse])
      have hone : Code.Types Δ [] [.op (.iconst 1)] σ (.int :: σ) :=
        Code.Types.next σ rfl rfl rfl rfl
      have hzero : Code.Types Δ [] [.op (.iconst 0)] σ (.int :: σ) :=
        Code.Types.next σ rfl rfl rfl rfl
      have hturn := Code.Types.turn (htest.append hone) (by simp) hend hfalse
      have hall := (hturn.append hzero).append (Code.Types.fall hend)
      have hclosed : Code.Types Δ [] _ σ (.int :: σ) := hall.weaken (by simp)
      simpa [materializeCode, ValueType.kind] using hclosed
  | grouping _ ih => exact ih σ
  | @assign n x a τ slot s s₁ f ts c _ _ ih =>
      obtain ⟨Γ, hkeys, hc⟩ := ih σ
      refine ⟨Γ, by simp [hkeys], fun Δ hΔ _ => ?_⟩
      have hdup : Code.Types Δ [] [.op .dup] (τ.kind :: σ) (τ.kind :: τ.kind :: σ) :=
        Code.Carries.next rfl rfl
      have hstore : Code.Types Δ [] [.op (.store τ slot)] (τ.kind :: τ.kind :: σ) (τ.kind :: σ) :=
        Code.Types.next (τ.kind :: σ) rfl rfl rfl rfl
      exact (hc Δ hΔ (by simp)).append (hdup.append hstore)
  | @compare n l r k τ t s s₁ s₂ ts₁ ts₂ c₁ c₂ _ _ ih₁ ih₂ =>
      obtain ⟨Γ₁, hkeys₁, hc₁⟩ := ih₁ σ
      obtain ⟨Γ₂, hkeys₂, hc₂⟩ := ih₂ (τ.kind :: σ)
      refine ⟨Γ₁ ++ Γ₂, by simp [hkeys₁, hkeys₂], fun Δ hΔ ht => ?_⟩
      obtain ⟨hΔ₁, hΔ₂⟩ := (Code.agrees_append Δ Γ₁ Γ₂).mp hΔ
      exact ((hc₁ Δ hΔ₁ (by simp)).append (hc₂ Δ hΔ₂ (by simp))).append
        (Code.Types.compare τ (ht t (by simp)))
  | and _ _ ih₁ ih₂ =>
      obtain ⟨Γ₁, hkeys₁, hc₁⟩ := ih₁ σ
      obtain ⟨Γ₂, hkeys₂, hc₂⟩ := ih₂ σ
      refine ⟨Γ₁ ++ Γ₂, by simp [hkeys₁, hkeys₂], fun Δ hΔ ht => ?_⟩
      obtain ⟨hΔ₁, hΔ₂⟩ := (Code.agrees_append Δ Γ₁ Γ₂).mp hΔ
      exact ((hc₁ Δ hΔ₁ ht).append (hc₂ Δ hΔ₂ ht)).weaken (by simp)
  | @or n l r t s s₁ s₂ ts₁ ts₂ c₁ c₂ _ _ ih₁ ih₂ =>
      obtain ⟨Γ₁, hkeys₁, hc₁⟩ := ih₁ σ
      obtain ⟨Γ₂, hkeys₂, hc₂⟩ := ih₂ σ
      refine ⟨Γ₁ ++ [(.numbered "OR_RHS" s.group, σ)] ++ Γ₂ ++ [(.numbered "OR_TRUE" s.group, σ)],
        by simp [hkeys₁, hkeys₂], fun Δ hΔ ht => ?_⟩
      simp only [Code.agrees_append, Code.agrees_cons, Code.agrees_nil, and_true] at hΔ
      obtain ⟨⟨⟨hΔ₁, hrhs⟩, hΔ₂⟩, htrue⟩ := hΔ
      have hturn := Code.Types.turn (hc₁ Δ hΔ₁ (by simp [hrhs])) (by simp) htrue hrhs
      exact ((hturn.append (hc₂ Δ hΔ₂ ht)).append (Code.Types.fall htrue)).weaken (by simp)
  | groupingTest _ ih => exact ih σ
  | branch _ _ ih =>
      obtain ⟨Γ, hkeys, hc⟩ := ih σ
      refine ⟨Γ, by simp [hkeys], fun Δ hΔ ht => ?_⟩
      exact (hc Δ hΔ (by simp)).append
        (Code.Types.branch [.int] rfl rfl rfl (ht _ (by simp)))

/-- **The code of a statement is typed on top of any stack** and leaves it as it was. -/
theorem StmtCode.stacks {st : Stmt} {s s' : Scope} {ts : List (Nat × ValueType)} {c : List Item}
    (h : StmtCode st s s' ts c) (σ : List StackType) :
    ∃ Γ : List (Label × List StackType), Γ.map Prod.fst = Code.labels c ∧
      ∀ Δ, Code.Agrees Δ Γ → Code.Types Δ [] c σ σ := by
  induction h with
  | declare he _ =>
      obtain ⟨Γ, hkeys, hc⟩ := he.stacks σ
      refine ⟨Γ, by simp [hkeys], fun Δ hΔ => ?_⟩
      exact (hc Δ hΔ (by simp)).append (Code.Types.next σ rfl rfl rfl rfl)
  | print he =>
      obtain ⟨Γ, hkeys, hc⟩ := he.stacks (.printStream :: σ)
      refine ⟨Γ, by simp [hkeys], fun Δ hΔ => ?_⟩
      have hout : Code.Types Δ [] [.op Gen.systemOut] σ (.printStream :: σ) :=
        Code.Types.next σ rfl rfl rfl rfl
      exact (hout.append (hc Δ hΔ (by simp))).append
        (Code.Types.next σ (Method.signature?_println _) rfl rfl rfl)
  | @read sp x scanner slot s f f' _ _ =>
      refine ⟨[], rfl, fun Δ _ => ?_⟩
      have hload : Code.Types Δ [] [.op (.loadRef scanner)] σ (.scanner :: σ) :=
        Code.Types.next σ rfl rfl rfl rfl
      have hline : Code.Types Δ [] [.op (.invokeVirtual Gen.nextLine)] (.scanner :: σ)
          (.string :: σ) :=
        Code.Types.next σ Method.signature?_nextLine rfl rfl rfl
      exact hload.append (hline.append (Code.Types.next σ rfl rfl rfl rfl))
  | @ifThen sp e yes s s₁ s₂ ts₁ ts₂ c₁ c₂ he _ ih =>
      obtain ⟨Γ₁, hkeys₁, hc₁⟩ := he.stacks σ
      obtain ⟨Γ₂, hkeys₂, hc₂⟩ := ih
      refine ⟨Γ₁ ++ [(.numbered "THEN" s.group, σ)] ++ Γ₂ ++ [(.numbered "END" s.group, σ)],
        by simp [hkeys₁, hkeys₂], fun Δ hΔ => ?_⟩
      simp only [Code.agrees_append, Code.agrees_cons, Code.agrees_nil, and_true] at hΔ
      obtain ⟨⟨⟨hΔ₁, hthen⟩, hΔ₂⟩, hend⟩ := hΔ
      have htest := hc₁ Δ hΔ₁ (by simp [hend])
      exact (((htest.append (Code.Types.fall hthen)).append (hc₂ Δ hΔ₂)).append
        (Code.Types.fall hend)).weaken (by simp)
  | @ifElse sp e yes no s s₁ s₂ s₃ ts₁ ts₂ ts₃ c₁ c₂ c₃ he _ _ ih₁ ih₂ =>
      obtain ⟨Γ₁, hkeys₁, hc₁⟩ := he.stacks σ
      obtain ⟨Γ₂, hkeys₂, hc₂⟩ := ih₁
      obtain ⟨Γ₃, hkeys₃, hc₃⟩ := ih₂
      refine ⟨Γ₁ ++ [(.numbered "THEN" s.group, σ)] ++ Γ₂ ++ [(.numbered "ELSE" s.group, σ)] ++
        Γ₃ ++ [(.numbered "END" s.group, σ)], by simp [hkeys₁, hkeys₂, hkeys₃], fun Δ hΔ => ?_⟩
      simp only [Code.agrees_append, Code.agrees_cons, Code.agrees_nil, and_true] at hΔ
      obtain ⟨⟨⟨⟨⟨hΔ₁, hthen⟩, hΔ₂⟩, helse⟩, hΔ₃⟩, hend⟩ := hΔ
      have htest := hc₁ Δ hΔ₁ (by simp [helse])
      have hyes := (htest.append (Code.Types.fall hthen)).append (hc₂ Δ hΔ₂)
      have hturn := Code.Types.turn hyes (by simp) hend helse
      exact ((hturn.append (hc₃ Δ hΔ₃)).append (Code.Types.fall hend)).weaken (by simp)
  | @whileDo sp e body s s₁ s₂ ts₁ ts₂ c₁ c₂ he _ ih =>
      obtain ⟨Γ₁, hkeys₁, hc₁⟩ := he.stacks σ
      obtain ⟨Γ₂, hkeys₂, hc₂⟩ := ih
      refine ⟨[(.numbered "LOOP_START" s.group, σ)] ++ Γ₁ ++ Γ₂ ++
        [(.numbered "LOOP_END" s.group, σ)], by simp [hkeys₁, hkeys₂], fun Δ hΔ => ?_⟩
      simp only [Code.agrees_append, Code.agrees_cons, Code.agrees_nil, and_true] at hΔ
      obtain ⟨⟨⟨hstart, hΔ₁⟩, hΔ₂⟩, hend⟩ := hΔ
      have htest := hc₁ Δ hΔ₁ (by simp [hend])
      -- the jump back finds the stack that the loop was entered with
      have hloop := ((Code.Types.fall hstart).append htest).append (hc₂ Δ hΔ₂)
      exact (Code.Types.turn hloop (by simp) hstart hend).weaken (by simp)
  | nil => exact ⟨[], rfl, fun Δ _ => Code.Carries.nil σ⟩
  | cons _ _ ih₁ ih₂ =>
      obtain ⟨Γ₁, hkeys₁, hc₁⟩ := ih₁
      obtain ⟨Γ₂, hkeys₂, hc₂⟩ := ih₂
      refine ⟨Γ₁ ++ Γ₂, by simp [hkeys₁, hkeys₂], fun Δ hΔ => ?_⟩
      obtain ⟨hΔ₁, hΔ₂⟩ := (Code.agrees_append Δ Γ₁ Γ₂).mp hΔ
      exact (hc₁ Δ hΔ₁).append (hc₂ Δ hΔ₂)
  | store he _ =>
      obtain ⟨Γ, hkeys, hc⟩ := he.stacks σ
      refine ⟨Γ, by simp [hkeys], fun Δ hΔ => ?_⟩
      exact (hc Δ hΔ (by simp)).append (Code.Types.next σ rfl rfl rfl rfl)
  | drop _ he =>
      obtain ⟨Γ, hkeys, hc⟩ := he.stacks σ
      refine ⟨Γ, by simp [hkeys], fun Δ hΔ => ?_⟩
      exact (hc Δ hΔ (by simp)).append (Code.Carries.next rfl rfl)

/-- Opening the scanner is typed, and leaves nothing on the stack. -/
theorem Code.types_openScanner (Δ : Label → List StackType) (slot : Nat) :
    Code.Types Δ [] ((Gen.openScanner slot).map .op) [] [] := by
  have hnew : Code.Types Δ [] [.op (.new Gen.scannerClass)] [] [.rawScanner] :=
    Code.Types.next [] rfl rfl rfl rfl
  have hdup : Code.Types Δ [] [.op .dup] [.rawScanner] [.rawScanner, .rawScanner] :=
    Code.Carries.next rfl rfl
  have hin : Code.Types Δ [] [.op Gen.systemIn] [.rawScanner, .rawScanner]
      [.inputStream, .rawScanner, .rawScanner] :=
    Code.Types.next _ rfl rfl rfl rfl
  have hinit : Code.Types Δ [] [.op (.invokeSpecial Gen.scannerInit)]
      [.inputStream, .rawScanner, .rawScanner] [.scanner] :=
    Code.Carries.next rfl rfl
  have hstore : Code.Types Δ [] [.op (.storeRef slot)] [.scanner] [] :=
    Code.Types.next [] rfl rfl rfl rfl
  exact hnew.append (hdup.append (hin.append (hinit.append hstore)))

/-! ## Typed positions -/

/--
`A` gives every position a stack of types: every instruction finds what it works on,
and what it leaves is what the next item and its target expect.
-/
structure Code.WellTyped (items : List Item) (A : Nat → List StackType) : Prop where
  start : A 0 = []
  finish : A items.length = []
  op : ∀ i k, items[i]? = some (.op k) → ∃ σ, k.onStack? (A i) = some σ ∧
    (k.endsFlow = false → A (i + 1) = σ) ∧
    ∀ l j, k.target? = some l → items[j]? = some (.label l) → A j = σ
  label : ∀ i l, items[i]? = some (.label l) → A (i + 1) = A i
  lands : ∀ l ∈ targets items, l ∈ labels items

namespace Code.WellTyped

variable {items : List Item} {A : Nat → List StackType}

theorem next (hA : WellTyped items A) {i : Nat} {k : Instr} {σ : List StackType}
    (hi : items[i]? = some (.op k)) (hk : k.endsFlow = false) (hσ : k.onStack? (A i) = some σ) :
    A (i + 1) = σ := by
  obtain ⟨σ', hσ', hfall, _⟩ := hA.op i k hi
  rw [hfall hk]
  exact Option.some.inj (hσ'.symm.trans hσ)

/-- An instruction with a signature behind a position whose types are known. -/
theorem pass (hA : WellTyped items A) {i : Nat} {k : Instr} {sig : Signature}
    {σ : List StackType} (hi : items[i]? = some (.op k)) (hk : k.endsFlow = false)
    (hsig : k.signature? = some sig) (hσ : A i = sig.takes ++ σ) : A (i + 1) = sig.gives ++ σ :=
  hA.next hi hk (hσ ▸ k.onStack?_of_signature hsig σ)

theorem jump (hA : WellTyped items A) {i j : Nat} {k : Instr} {sig : Signature} {l : Label}
    {σ : List StackType} (hi : items[i]? = some (.op k)) (hk : k.target? = some l)
    (hsig : k.signature? = some sig) (hσ : A i = sig.takes ++ σ)
    (hj : items[j]? = some (.label l)) : A j = sig.gives ++ σ := by
  obtain ⟨σ', hσ', _, hjump⟩ := hA.op i k hi
  rw [hjump l j hk hj]
  rw [hσ, k.onStack?_of_signature hsig σ] at hσ'
  exact (Option.some.inj hσ').symm

/-- A comparison takes two values, whether it jumps or not. -/
theorem compare (hA : WellTyped items A) {i : Nat} {k : Comparison} {t : Label} {τ : ValueType}
    {σ : List StackType} (hi : At items i (k.branch t τ)) (hσ : A i = τ.kind :: τ.kind :: σ) :
    A (i + (k.branch t τ).length) = σ ∧ ∀ j, items[j]? = some (.label t) → A j = σ := by
  cases τ with
  | numeric =>
      obtain ⟨hcmp, hbr, _⟩ := hi
      have hint := hA.pass hcmp (Instr.endsFlow_of_target? (Gen.target?_floatCompare k))
        (Gen.signature?_floatCompare k) hσ
      exact ⟨hA.pass hbr rfl rfl hint, fun j hj => hA.jump hbr rfl rfl hint hj⟩
  | string =>
      obtain ⟨hcmp, hbr, _⟩ := hi
      have hint := hA.pass hcmp rfl Method.signature?_compareTo hσ
      exact ⟨hA.pass hbr rfl rfl hint, fun j hj => hA.jump hbr rfl rfl hint hj⟩
  | bool =>
      obtain ⟨hbr, _⟩ := hi
      exact ⟨hA.pass hbr rfl rfl hσ, fun j hj => hA.jump hbr rfl rfl hσ hj⟩

end Code.WellTyped

/--
**Whatever the typing, the code of a value leaves its type** on top of the stack it starts
with, and the code of a condition leaves that stack, also where it jumps to.
-/
theorem ExprCode.leaves {e : Expr} {pos : ExprPosition} {s s' : Scope}
    {ts : List (Nat × ValueType)} {c items : List Item} {A : Nat → List StackType}
    (h : ExprCode e pos s s' ts c) (hA : Code.WellTyped items A) {i : Nat}
    (hat : Code.At items i c) :
    A (i + c.length) = pos.leaves ++ A i ∧
      ∀ t ∈ pos.outer, ∀ j, items[j]? = some (.label t) → A j = A i := by
  induction h generalizing i with
  | literal hv =>
      refine ⟨?_, by simp⟩
      exact hA.pass hat.1 (Instr.endsFlow_of_target? (Literal.target?_push hv))
        (Literal.signature?_push hv) rfl
  | var _ => exact ⟨hA.pass hat.1 rfl rfl rfl, by simp⟩
  | not _ ih =>
      obtain ⟨ha, hone, hxor, _⟩ := (Code.at_append ..).mp hat
      have hint := hA.pass hone rfl rfl (ih ha).1
      rw [List.length_append, ← Nat.add_assoc]
      exact ⟨hA.pass hxor rfl rfl hint, by simp⟩
  | neg _ ih =>
      obtain ⟨ha, hneg, _⟩ := (Code.at_append ..).mp hat
      rw [List.length_append, ← Nat.add_assoc]
      exact ⟨hA.pass hneg rfl rfl (ih ha).1, by simp⟩
  | arith _ _ hi ih₁ ih₂ =>
      simp only [Code.at_append, Code.at_cons, List.length_append, ← Nat.add_assoc] at hat ⊢
      obtain ⟨⟨hl, hr⟩, hop, _⟩ := hat
      have hboth := (ih₂ hr).1
      rw [(ih₁ hl).1] at hboth
      refine ⟨?_, by simp⟩
      exact hA.pass hop (Instr.endsFlow_of_target? (Gen.target?_arithInstr hi))
        (Gen.signature?_arithInstr hi) hboth
  | materialize _ _ ih =>
      obtain ⟨ha, _, _, hfalse, hzero, hend, _⟩ := (Code.at_append ..).mp hat
      -- the way of the false outcome is enough: the other one has to agree with it
      have htest := (ih ha).2 _ (by simp) _ hfalse
      rw [← hA.label _ _ hfalse] at htest
      have hint := hA.pass hzero rfl rfl htest
      refine ⟨?_, by simp⟩
      rw [List.length_append, ← Nat.add_assoc]
      exact (hA.label _ _ hend).trans hint
  | grouping _ ih => exact ih hat
  | assign _ _ ih =>
      obtain ⟨ha, hdup, hstore, _⟩ := (Code.at_append ..).mp hat
      have hv := (ih ha).1
      have htwo := hA.next hdup rfl (by rw [hv]; rfl)
      refine ⟨?_, by simp⟩
      rw [List.length_append, ← Nat.add_assoc]
      exact hA.pass hstore rfl rfl htwo
  | compare _ _ ih₁ ih₂ =>
      simp only [Code.at_append, List.length_append, ← Nat.add_assoc] at hat ⊢
      obtain ⟨⟨hl, hr⟩, hbr⟩ := hat
      have hboth := (ih₂ hr).1
      rw [(ih₁ hl).1] at hboth
      obtain ⟨hfall, hjump⟩ := hA.compare hbr hboth
      refine ⟨hfall, fun t' ht' => ?_⟩
      rw [List.mem_singleton.mp ht']
      exact hjump
  | and _ _ ih₁ ih₂ =>
      obtain ⟨hl, hr⟩ := (Code.at_append ..).mp hat
      have hleft := ih₁ hl
      have hright := (ih₂ hr).1
      rw [hleft.1] at hright
      rw [List.length_append, ← Nat.add_assoc]
      exact ⟨hright, hleft.2⟩
  | or _ _ ih₁ ih₂ =>
      simp only [Code.at_append, Code.at_cons, List.length_append, List.length_cons,
        List.length_nil, ← Nat.add_assoc] at hat ⊢
      obtain ⟨⟨⟨hl, _, hsecond, _⟩, hr⟩, hyes, _⟩ := hat
      -- the code of the second condition starts behind the label the first one jumps to
      have hstart := (hA.label _ _ hsecond).trans ((ih₁ hl).2 _ (by simp) _ hsecond)
      obtain ⟨hfall, hjump⟩ := ih₂ hr
      exact ⟨(hA.label _ _ hyes).trans (hfall.trans hstart),
        fun t ht j hj => (hjump t ht j hj).trans hstart⟩
  | groupingTest _ ih => exact ih hat
  | branch _ _ ih =>
      obtain ⟨ha, hbr, _⟩ := (Code.at_append ..).mp hat
      have hint := (ih ha).1
      rw [List.length_append, ← Nat.add_assoc]
      refine ⟨hA.pass hbr rfl rfl hint, fun t ht j hj => ?_⟩
      rw [List.mem_singleton.mp ht] at hj
      exact hA.jump hbr rfl rfl hint hj

/-! ## Finished code -/

namespace Generator

variable {g : Generator} {p : Program}

theorem types_prologue (Δ : Label → List StackType) (g : Generator) :
    Code.Types Δ [] g.prologue [] [] := by
  unfold prologue
  split
  · exact Code.types_openScanner Δ _
  · exact Code.Carries.nil []

/-- One walk types finished code from an empty stack to an empty stack. -/
theorem finished_types (h : empty.generate p = (.ok (), g)) :
    ∃ Δ, Code.Types Δ [] g.finishedItems [] [] := by
  obtain ⟨ts, hcode, _⟩ := generate_code h
  obtain ⟨Γ, hkeys, hc⟩ := hcode.stacks []
  obtain ⟨Δ, hΔ⟩ := Code.exists_agrees Γ (hkeys ▸ hcode.linked.nodup)
  refine ⟨Δ, ?_⟩
  rw [finishedItems_eq]
  exact (types_prologue Δ g).append (hc Δ hΔ)

theorem finished_wellTyped (h : empty.generate p = (.ok (), g)) :
    ∃ A, Code.WellTyped g.finishedItems A := by
  obtain ⟨Δ, hΔ⟩ := finished_types h
  obtain ⟨js, _, _, hflows⟩ := hΔ []
  obtain ⟨A, hcert, hstart, hend⟩ := hflows.certificate (fun _ => rfl)
  refine ⟨A, hstart.symm, hend, ?_, fun i l hi => (hcert.label i l hi).symm,
    fun l hl => finished_targets h hl⟩
  intro i k hi
  obtain ⟨σ, hσ, hfall, hjump⟩ := hcert.op i k hi
  exact ⟨σ, hσ, fun hk => (hfall hk).symm, fun l j hl hj => (hjump l j hl hj).symm⟩

end Generator

/--
**Generated code is well typed on the operand stack.** The typing also says what the
code of a value leaves, wherever it stands: the type that the pass inferred.
-/
theorem Program.assemble_wellTyped {p : Program} {a : Assembly} (h : p.assemble = .ok a) :
    ∃ A, Code.WellTyped a.items A ∧
      ∀ (e : Expr) (τ : ValueType) (g g' : Generator) (before code after : List Item),
        Gen.Yields (Gen.value e) g τ g' → g'.items = g.items ++ code →
        a.items = before ++ code ++ after →
        A (before.length + code.length) = τ.kind :: A before.length := by
  obtain ⟨g, hgen, hfin⟩ := Program.assemble_eq_ok.mp h
  obtain ⟨A, hA⟩ := Generator.finished_wellTyped hgen
  rw [← Generator.items_of_finish hfin] at hA
  refine ⟨A, hA, ?_⟩
  intro e τ g₁ g₂ before code after hv hcode hitems
  obtain ⟨ts, c, hc, hadds⟩ := Gen.value_emits hv
  rw [hadds.items, List.append_cancel_left_eq] at hcode
  subst hcode
  exact (hc.leaves hA (hitems ▸ Code.at_middle before c after)).1

theorem Program.assemble_wellTyped_greeting :
    ∃ a A, greeting.assemble = .ok a ∧ Code.WellTyped a.items A ∧ A 6 = .string :: A 5 := by
  obtain ⟨a, ha⟩ := greeting_assembles
  obtain ⟨A, hA, hvalue⟩ := assemble_wellTyped ha
  -- the first value is an empty string, behind the five items that open the scanner
  have hitems : ∃ after,
      a.items = (Gen.openScanner 3).map .op ++ [.op (.ldcString "")] ++ after := by
    have htake : greeting.assemble.toOption.map (·.items.take 6) =
        some ((Gen.openScanner 3).map .op ++ [.op (.ldcString "")]) := by decide +kernel
    rw [ha] at htake
    refine ⟨a.items.drop 6, ?_⟩
    rw [← Option.some.inj htake]
    exact (List.take_append_drop 6 a.items).symm
  obtain ⟨after, hitems⟩ := hitems
  exact ⟨a, A, ha, hA, hvalue (.literal ⟨0, default⟩ (.string "")) .string .empty _ _ _ _ rfl rfl
    hitems⟩

end Dam
