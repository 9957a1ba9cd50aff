import Dam.Code.ClassText
import Dam.Proofs.Escapes
import Dam.Proofs.LabelGroups
import Dam.Proofs.NumberText

/-!
# Lines of code

The line of an item determines the item, but for one thing: a string variable and an
object are moved by the same instruction of the machine. An instruction is written as a
name, which has no blank in it, and an operand behind a blank. There are few names; the
operands that go with one name are told apart by their texts, and no text ends the line.
-/

namespace Dam

/-! ## Names and operands -/

/-- What an instruction names besides itself. -/
inductive Operand where
  | none
  | number (value : Binary64)
  | string (value : String)
  | slot (slot : Nat)
  | label (target : Label)
  | type (className : String)
  | field (field descriptor : String)
  | method (method : Method)

namespace Operand

/-- The operand as it is written, with the blank in front of it. -/
def text : Operand → List Char
  | none => []
  | number x => ' ' :: (floatConstant x).toList
  | string s => ' ' :: '\x22' :: (escapeString s).toList ++ ['\x22']
  | slot k => ' ' :: (toString k).toList
  | label l => ' ' :: l.name.toList
  | type c => ' ' :: c.toList
  | field f d => ' ' :: f.toList ++ ' ' :: d.toList
  | method m => ' ' :: m.text.toList

/-- Some operand of the same sort. The two sorts of constants count as one. -/
def sample : Operand → Operand
  | none => none
  | number _ | string _ => string ""
  | slot _ => slot 0
  | label _ => label default
  | type _ => type ""
  | field _ _ => field "" ""
  | method _ => method default

end Operand

namespace Instr

/-- The operand of an instruction. -/
def operand : Instr → Operand
  | ldcFloat x => .number x
  | ldcString s => .string s
  | load _ k | store _ k | loadRef k | storeRef k => .slot k
  | ifZero _ l | ifInts _ l | goto l => .label l
  | new c => .type c
  | getStatic f d => .field f d
  | invokeVirtual m | invokeSpecial m => .method m
  | _ => .none

/-- The instruction with another operand of the same sort. -/
def withOperand : Instr → Operand → Instr
  | ldcFloat _, .number x | ldcString _, .number x => ldcFloat x
  | ldcFloat _, .string s | ldcString _, .string s => ldcString s
  | load t _, .slot k => load t k
  | store t _, .slot k => store t k
  | loadRef _, .slot k => loadRef k
  | storeRef _, .slot k => storeRef k
  | ifZero c _, .label l => ifZero c l
  | ifInts c _, .label l => ifInts c l
  | goto _, .label l => goto l
  | new _, .type c => new c
  | getStatic _ _, .field f d => getStatic f d
  | invokeVirtual _, .method m => invokeVirtual m
  | invokeSpecial _, .method m => invokeSpecial m
  | i, _ => i

/-- The instruction with a sample for its operand. -/
def opcode (i : Instr) : Instr := i.withOperand i.operand.sample

/-- The name of an instruction. -/
def mnemonic : Instr → String
  | ldcFloat _ | ldcString _ => "ldc"
  | iconst n => "iconst_" ++ toString n
  | load t _ => String.singleton t.letter ++ "load"
  | store t _ => String.singleton t.letter ++ "store"
  | loadRef _ => "aload"
  | storeRef _ => "astore"
  | arith op => op.mnemonic
  | fneg => "fneg"
  | ixor => "ixor"
  | fcmpl => "fcmpl"
  | fcmpg => "fcmpg"
  | ifZero c _ => "if" ++ c.suffix
  | ifInts c _ => "if_icmp" ++ c.suffix
  | goto _ => "goto"
  | dup => "dup"
  | pop => "pop"
  | new _ => "new"
  | getStatic _ _ => "getstatic"
  | invokeVirtual _ => "invokevirtual"
  | invokeSpecial _ => "invokespecial"

variable {i j : Instr}

theorem toList_text (i : Instr) : i.text.toList = i.mnemonic.toList ++ i.operand.text := by
  cases i <;> simp [text, mnemonic, operand, Operand.text]

theorem opcode_withOperand (i : Instr) : i.opcode.withOperand i.operand = i := by
  cases i <;> rfl

theorem mnemonic_opcode (i : Instr) : i.opcode.mnemonic = i.mnemonic := by
  cases i <;> rfl

theorem sample_operand (i : Instr) : i.operand.sample = i.opcode.operand := by
  cases i <;> rfl

/-- An instruction is its opcode and its operand. -/
theorem eq_of_opcode (hopcode : i.opcode = j.opcode) (hoperand : i.operand = j.operand) :
    i = j := by
  rw [← opcode_withOperand i, hopcode, hoperand, opcode_withOperand]

end Instr

/-! ## The vocabulary -/

/-- The labels that constructs place. -/
def Label.Placed (l : Label) : Prop := ∃ stem ∈ Label.stems, ∃ n, l = .numbered stem n

namespace Gen

/-- The methods that code calls. -/
def methods : List Method :=
  [concat, compareTo, nextLine, scannerInit] ++ ValueType.all.map println

/-- The fields that code reads. -/
def fields : List Instr := [systemOut, systemIn]

end Gen

namespace Instr

/-- The instructions that are used, up to constants and slots. -/
def InUse : Instr → Prop
  | iconst n => n < 2
  | ifZero _ l | ifInts _ l | goto l => l.Placed
  | new c => c = Gen.scannerClass
  | getStatic f d => getStatic f d ∈ Gen.fields
  | invokeVirtual m | invokeSpecial m => m ∈ Gen.methods
  | _ => True

/-- Whether an instruction pushes what is no number. -/
def pushesNaN : Instr → Bool
  | ldcFloat x => x.isNaN
  | _ => false

/-- The instruction that moves a string where this one moves an object. -/
def asValue : Instr → Instr
  | loadRef k => load .string k
  | storeRef k => store .string k
  | i => i

/-- The instructions in use, but for those that move objects, with samples for operands. -/
def opcodes : List Instr :=
  [ldcString "", iconst 0, iconst 1] ++
  ValueType.all.flatMap (fun t => [load t 0, store t 0]) ++
  [.add, .sub, .mul, .div].map arith ++
  [fneg, ixor, fcmpl, fcmpg] ++
  [.eq, .ne, .lt, .le, .gt, .ge].flatMap (fun c => [ifZero c default, ifInts c default]) ++
  [goto default, dup, pop, new "", getStatic "" "", invokeVirtual default, invokeSpecial default]

variable {i j : Instr}

theorem text_asValue (i : Instr) : i.asValue.text = i.text := by
  cases i <;> rfl

theorem InUse.asValue (h : i.InUse) : i.asValue.InUse := by
  cases i <;> exact h

theorem opcode_mem (h : i.InUse) : i.asValue.opcode ∈ opcodes := by
  cases i with
  | ldcFloat | ldcString => exact (by decide : ldcString "" ∈ opcodes)
  | iconst n =>
      have hn : n = 0 ∨ n = 1 := by
        have hlt : n < 2 := h
        omega
      rcases hn with rfl | rfl <;> decide
  | load t _ =>
      show load t 0 ∈ opcodes
      cases t <;> decide
  | store t _ =>
      show store t 0 ∈ opcodes
      cases t <;> decide
  | loadRef => exact (by decide : load .string 0 ∈ opcodes)
  | storeRef => exact (by decide : store .string 0 ∈ opcodes)
  | arith op => cases op <;> decide
  | fneg | ixor | fcmpl | fcmpg | dup | pop => decide
  | ifZero c _ =>
      show ifZero c default ∈ opcodes
      cases c <;> decide
  | ifInts c _ =>
      show ifInts c default ∈ opcodes
      cases c <;> decide
  | goto => exact (by decide : goto default ∈ opcodes)
  | new => exact (by decide : new "" ∈ opcodes)
  | getStatic => exact (by decide : getStatic "" "" ∈ opcodes)
  | invokeVirtual => exact (by decide : invokeVirtual default ∈ opcodes)
  | invokeSpecial => exact (by decide : invokeSpecial default ∈ opcodes)

theorem nodup_mnemonics : (opcodes.map fun i => i.mnemonic.toList).Nodup := by
  decide +kernel

theorem mnemonic_chars : ∀ i ∈ opcodes, ' ' ∉ i.mnemonic.toList ∧ '\n' ∉ i.mnemonic.toList := by
  decide +kernel

end Instr

/-! ## Operands are told apart by their texts -/

theorem not_mem_toString (n : Nat) {c : Char} (hc : c.isDigit = false) :
    c ∉ (toString n).toList := by
  intro hmem
  have hdigit : c.isDigit = true :=
    Nat.isDigit_of_mem_toDigits (by decide) (by decide) (Nat.toList_repr ▸ hmem)
  rw [hc] at hdigit
  cases hdigit

theorem Label.Placed.not_mem {l : Label} (h : l.Placed) {c : Char}
    (hc : (c.isUpper || c == '_' || c.isDigit) = false) : c ∉ l.name.toList := by
  obtain ⟨stem, hstem, n, rfl⟩ := h
  rw [Bool.or_eq_false_iff] at hc
  have hstems : stems.all (fun stem => stem.toList.all fun d => d.isUpper || d == '_') = true := by
    decide
  rw [numbered, String.toList_append, List.mem_append, not_or]
  refine ⟨fun hmem => ?_, not_mem_toString n hc.2⟩
  have hletter := List.all_eq_true.mp (List.all_eq_true.mp hstems stem hstem) c hmem
  rw [hc.1] at hletter
  cases hletter

namespace Operand

/-- The operands of instructions in use. -/
def InUse : Operand → Prop
  | label l => l.Placed
  | type c => c = Gen.scannerClass
  | field f d => Instr.getStatic f d ∈ Gen.fields
  | method m => m ∈ Gen.methods
  | _ => True

/-- Whether an operand is no number. -/
def isNaN : Operand → Bool
  | number x => x.isNaN
  | _ => false

variable {o o' : Operand}

/-- A constant in quotes is no number. -/
theorem text_number_ne_string (x : Binary64) (s : String) : (number x).text ≠ (string s).text := by
  intro h
  have hquote : (floatConstant x).toList = '\x22' :: ((escapeString s).toList ++ ['\x22']) :=
    (List.cons.inj h).2
  have hmem : '\x22' ∈ (floatConstant x).toList := hquote ▸ List.mem_cons_self
  exact x.not_mem_floatConstant (by decide) hmem

theorem fields_inj : ∀ i ∈ Gen.fields, ∀ j ∈ Gen.fields,
    i.operand.text = j.operand.text → i = j := by
  decide +kernel

theorem methods_inj : ∀ m ∈ Gen.methods, ∀ m' ∈ Gen.methods,
    m.text.toList = m'.text.toList → m = m' := by
  decide +kernel

/-- Operands of one sort are told apart by their texts. -/
theorem eq_of_text (ho : o.InUse) (ho' : o'.InUse) (hnan : o.isNaN = false)
    (hnan' : o'.isNaN = false) (hsort : o.sample = o'.sample) (h : o.text = o'.text) :
    o = o' := by
  -- the sort leaves one form for the other operand, or the two forms of constants
  cases o with
  | none => cases o' <;> cases hsort; rfl
  | number x =>
      cases o' <;> cases hsort
      · rw [Binary64.eq_of_floatConstant hnan hnan' (String.toList_inj.mp (List.cons.inj h).2)]
      · exact absurd h (text_number_ne_string _ _)
  | string s =>
      cases o' <;> cases hsort
      · exact absurd h.symm (text_number_ne_string _ _)
      · have hquoted := List.append_cancel_right (List.cons.inj (List.cons.inj h).2).2
        rw [escapeString_inj (String.toList_inj.mp hquoted)]
  | slot k =>
      cases o' <;> cases hsort
      rw [Nat.repr_inj.mp (String.toList_inj.mp (List.cons.inj h).2)]
  | label l =>
      cases o' <;> cases hsort
      rw [Label.eq_of_name (String.toList_inj.mp (List.cons.inj h).2)]
  | type c =>
      cases o' <;> cases hsort
      rw [String.toList_inj.mp (List.cons.inj h).2]
  | field f d =>
      cases o' <;> cases hsort
      cases fields_inj _ ho _ ho' h
      rfl
  | method m =>
      cases o' <;> cases hsort
      rw [methods_inj _ ho _ ho' (List.cons.inj h).2]

/-- There is a blank in front of an operand. -/
theorem text_eq_nil_or_cons (o : Operand) : o.text = [] ∨ ∃ cs, o.text = ' ' :: cs := by
  cases o with
  | none => exact .inl rfl
  | _ => exact .inr ⟨_, rfl⟩

theorem newline_not_mem_text (h : o.InUse) : '\n' ∉ o.text := by
  cases o with
  | none => exact List.not_mem_nil
  | number x =>
      exact List.not_mem_cons_of_ne_of_not_mem (by decide) (x.not_mem_floatConstant (by decide))
  | string s =>
      intro hmem
      have hquoted : '\n' ∈ (escapeString s).toList := by simpa [text] using hmem
      exact absurd (isPrintable_escapeString s _ hquoted) (by decide)
  | slot k => exact List.not_mem_cons_of_ne_of_not_mem (by decide) (not_mem_toString k (by decide))
  | label l => exact List.not_mem_cons_of_ne_of_not_mem (by decide) (h.not_mem (by decide))
  | type c =>
      cases h
      decide
  | field f d =>
      have hall : ∀ i ∈ Gen.fields, '\n' ∉ i.operand.text := by decide +kernel
      exact hall _ h
  | method m =>
      have hall : ∀ m ∈ Gen.methods, '\n' ∉ (method m).text := by decide +kernel
      exact hall m h

end Operand

/-! ## Instructions -/

/-- A name without a blank ends where the operand begins. -/
theorem append_inj_of_blank {m m' t t' : List Char} (hm : ' ' ∉ m) (hm' : ' ' ∉ m')
    (ht : t = [] ∨ ∃ cs, t = ' ' :: cs) (ht' : t' = [] ∨ ∃ cs, t' = ' ' :: cs)
    (h : m ++ t = m' ++ t') : m = m' ∧ t = t' := by
  have htake : ∀ {m t : List Char}, ' ' ∉ m → (t = [] ∨ ∃ cs, t = ' ' :: cs) →
      (m ++ t).takeWhile (· ≠ ' ') = m := by
    intro m t hm ht
    have hall : ∀ c ∈ m, decide (c ≠ ' ') = true := by
      intro c hc
      exact decide_eq_true fun hblank => hm (hblank ▸ hc)
    rw [List.takeWhile_append_of_pos hall]
    rcases ht with rfl | ⟨cs, rfl⟩
    · exact List.append_nil m
    · exact List.append_nil m
  have hname : m = m' := by rw [← htake hm ht, h, htake hm' ht']
  subst hname
  exact ⟨rfl, List.append_cancel_left h⟩

namespace Instr

variable {i j : Instr}

theorem InUse.operand (h : i.InUse) : i.operand.InUse := by
  cases i with
  | iconst => trivial
  | _ => exact h

theorem isNaN_operand (i : Instr) : i.asValue.operand.isNaN = i.pushesNaN := by
  cases i <;> rfl

/-- An instruction is determined by its text, up to what it moves. -/
theorem asValue_eq_of_text (hi : i.InUse) (hj : j.InUse) (hnan : i.pushesNaN = false)
    (hnan' : j.pushesNaN = false) (h : i.text = j.text) : i.asValue = j.asValue := by
  have hmem := opcode_mem hi
  have hmem' := opcode_mem hj
  have hchars := (mnemonic_chars _ hmem).1
  have hchars' := (mnemonic_chars _ hmem').1
  rw [← text_asValue i, ← text_asValue j, ← String.toList_inj, toList_text, toList_text] at h
  rw [mnemonic_opcode] at hchars hchars'
  -- names and operands agree, since the first blank is between them
  obtain ⟨hname, hoperand⟩ := append_inj_of_blank hchars hchars'
    (Operand.text_eq_nil_or_cons _) (Operand.text_eq_nil_or_cons _) h
  have hopcode : i.asValue.opcode = j.asValue.opcode := by
    refine List.inj_on_of_nodup_map nodup_mnemonics hmem hmem' ?_
    rw [mnemonic_opcode, mnemonic_opcode, hname]
  refine eq_of_opcode hopcode (Operand.eq_of_text hi.asValue.operand hj.asValue.operand ?_ ?_ ?_
    hoperand)
  · rw [isNaN_operand, hnan]
  · rw [isNaN_operand, hnan']
  · rw [sample_operand, sample_operand, hopcode]

theorem newline_not_mem_text (h : i.InUse) : '\n' ∉ i.text.toList := by
  have hchars := (mnemonic_chars _ (opcode_mem h)).2
  rw [mnemonic_opcode] at hchars
  rw [← text_asValue, toList_text, List.mem_append, not_or]
  exact ⟨hchars, Operand.newline_not_mem_text h.asValue.operand⟩

end Instr

/-! ## Items -/

namespace Item

/-- The items that are used. -/
def InUse : Item → Prop
  | label l => l.Placed
  | op i => i.InUse

/-- Whether an item pushes what is no number. -/
def pushesNaN : Item → Bool
  | label _ => false
  | op i => i.pushesNaN

/-- The item that moves a string where this one moves an object. -/
def asValue : Item → Item
  | label l => label l
  | op i => op i.asValue

/-- Two items that are written the same: one moves a string, the other an object. -/
def Twins (x y : Item) : Prop :=
  ∃ k, (x = op (.load .string k) ∧ y = op (.loadRef k)) ∨
    (x = op (.store .string k) ∧ y = op (.storeRef k))

variable {x y : Item}

theorem line_asValue (x : Item) : x.asValue.line = x.line := by
  cases x with
  | label l => rfl
  | op i =>
      show "\t" ++ i.asValue.text = "\t" ++ i.text
      rw [Instr.text_asValue]

theorem asValue_cases (x : Item) :
    x.asValue = x ∨ (∃ k, x = op (.loadRef k)) ∨ ∃ k, x = op (.storeRef k) := by
  cases x with
  | label l => exact .inl rfl
  | op i =>
      cases i with
      | loadRef k => exact .inr (.inl ⟨k, rfl⟩)
      | storeRef k => exact .inr (.inr ⟨k, rfl⟩)
      | _ => exact .inl rfl

theorem eq_or_twins_of_asValue (h : x.asValue = y.asValue) : x = y ∨ Twins x y ∨ Twins y x := by
  rcases asValue_cases x with hx | ⟨k, rfl⟩ | ⟨k, rfl⟩
  · rcases asValue_cases y with hy | ⟨k, rfl⟩ | ⟨k, rfl⟩
    · exact .inl (by rw [← hx, h, hy])
    · exact .inr (.inl ⟨k, .inl ⟨by rw [← hx, h]; rfl, rfl⟩⟩)
    · exact .inr (.inl ⟨k, .inr ⟨by rw [← hx, h]; rfl, rfl⟩⟩)
  · rcases asValue_cases y with hy | ⟨k', rfl⟩ | ⟨k', rfl⟩
    · exact .inr (.inr ⟨k, .inl ⟨by rw [← hy, ← h]; rfl, rfl⟩⟩)
    · cases h
      exact .inl rfl
    · cases h
  · rcases asValue_cases y with hy | ⟨k', rfl⟩ | ⟨k', rfl⟩
    · exact .inr (.inr ⟨k, .inr ⟨by rw [← hy, ← h]; rfl, rfl⟩⟩)
    · cases h
    · cases h
      exact .inl rfl

theorem Twins.line_eq (h : Twins x y) : x.line = y.line := by
  obtain ⟨k, ⟨rfl, rfl⟩ | ⟨rfl, rfl⟩⟩ := h
  · exact line_asValue (op (.loadRef k))
  · exact line_asValue (op (.storeRef k))

theorem toList_line_label (l : Label) : (label l).line.toList = l.name.toList ++ [':'] :=
  String.toList_append

theorem toList_line_op (i : Instr) : (op i).line.toList = '\t' :: i.text.toList :=
  String.toList_append

/-- A label's line is not indented. -/
theorem line_label_ne_op {l : Label} (h : l.Placed) (i : Instr) :
    (label l).line ≠ (op i).line := by
  intro heq
  rw [← String.toList_inj, toList_line_label, toList_line_op] at heq
  have hmem : '\t' ∈ l.name.toList ++ [':'] := heq ▸ List.mem_cons_self
  rcases List.mem_append.mp hmem with hmem | hmem
  · exact h.not_mem (by decide) hmem
  · exact absurd hmem (by decide)

/-- An item is determined by its line, up to what it moves. -/
theorem asValue_eq_of_line (hx : x.InUse) (hy : y.InUse) (hnan : x.pushesNaN = false)
    (hnan' : y.pushesNaN = false) (h : x.line = y.line) : x.asValue = y.asValue := by
  cases x with
  | label l =>
      cases y with
      | label l' =>
          rw [← String.toList_inj, toList_line_label, toList_line_label] at h
          rw [Label.eq_of_name (String.toList_inj.mp (List.append_cancel_right h))]
      | op j => exact absurd h (line_label_ne_op hx j)
  | op i =>
      cases y with
      | label l => exact absurd h.symm (line_label_ne_op hy i)
      | op j =>
          rw [← String.toList_inj, toList_line_op, toList_line_op] at h
          have htext := String.toList_inj.mp (List.cons.inj h).2
          exact congrArg op (Instr.asValue_eq_of_text hx hy hnan hnan' htext)

/-- **Two items are written the same only if they are the same or twins.** -/
theorem line_eq_iff (hx : x.InUse) (hy : y.InUse) (hnan : x.pushesNaN = false)
    (hnan' : y.pushesNaN = false) : x.line = y.line ↔ x = y ∨ Twins x y ∨ Twins y x := by
  constructor
  · intro h
    exact eq_or_twins_of_asValue (asValue_eq_of_line hx hy hnan hnan' h)
  · rintro (rfl | h | h)
    · rfl
    · exact h.line_eq
    · exact h.line_eq.symm

theorem newline_not_mem_line (h : x.InUse) : '\n' ∉ x.line.toList := by
  cases x with
  | label l =>
      rw [toList_line_label, List.mem_append, not_or]
      exact ⟨h.not_mem (by decide), by decide⟩
  | op i =>
      rw [toList_line_op, List.mem_cons, not_or]
      exact ⟨by decide, Instr.newline_not_mem_text h⟩

end Item

end Dam
