import Dam.Code.Constant
import Dam.Code.Label
import Dam.Code.Method
import Dam.Program
import Dam.ValueType

/-!
# Instructions

The part of the target machine's instruction set that programs are compiled to,
and the text the assembler reads. An item of the code is an instruction or a label
in front of the next instruction.
-/

namespace Dam

/-- The comparison in the name of a branch instruction. -/
def Comparison.suffix : Comparison → String
  | .eq => "eq"
  | .ne => "ne"
  | .lt => "lt"
  | .ge => "ge"
  | .gt => "gt"
  | .le => "le"

/-- An instruction. `loadRef` and `storeRef` move objects that are not values of the program. -/
inductive Instr where
  | ldcFloat (value : Binary64)
  | ldcString (value : String)
  | iconst (n : Nat)
  | load (type : ValueType) (slot : Nat)
  | store (type : ValueType) (slot : Nat)
  | loadRef (slot : Nat)
  | storeRef (slot : Nat)
  | arith (op : ArithOp)
  | fneg
  | ixor
  | fcmpl
  | fcmpg
  | ifZero (test : Comparison) (target : Label)
  | ifInts (test : Comparison) (target : Label)
  | goto (target : Label)
  | dup
  | pop
  | new (className : String)
  | getStatic (field descriptor : String)
  | invokeVirtual (method : Method)
  | invokeSpecial (method : Method)
deriving DecidableEq, Repr, Inhabited

/-- The float instruction for an arithmetic operator. -/
def ArithOp.mnemonic : ArithOp → String
  | .add => "fadd"
  | .sub => "fsub"
  | .mul => "fmul"
  | .div => "fdiv"

namespace Instr

/-- What an instruction does to the depth of the operand stack, in words. -/
def effect : Instr → Int
  | ldcFloat _ | ldcString _ | iconst _ | load _ _ | loadRef _ | dup | new _ | getStatic _ _ => 1
  | store _ _ | storeRef _ | pop | arith _ | ixor | fcmpl | fcmpg | ifZero _ _ => -1
  | ifInts _ _ => -2
  | fneg | goto _ => 0
  | invokeVirtual m | invokeSpecial m => m.effect

/-- Where an instruction may jump to. -/
def target? : Instr → Option Label
  | ifZero _ l | ifInts _ l | goto l => some l
  | _ => none

/-- Whether control never reaches the next item from here. -/
def endsFlow : Instr → Bool
  | goto _ => true
  | _ => false

/-- The instruction as the assembler reads it. -/
def text : Instr → String
  | ldcFloat x => "ldc " ++ floatConstant x
  | ldcString s => "ldc \"" ++ escapeString s ++ "\""
  | iconst n => "iconst_" ++ toString n
  | load t slot => String.singleton t.letter ++ "load " ++ toString slot
  | store t slot => String.singleton t.letter ++ "store " ++ toString slot
  | loadRef slot => "aload " ++ toString slot
  | storeRef slot => "astore " ++ toString slot
  | arith op => op.mnemonic
  | fneg => "fneg"
  | ixor => "ixor"
  | fcmpl => "fcmpl"
  | fcmpg => "fcmpg"
  | ifZero c l => "if" ++ c.suffix ++ " " ++ l.name
  | ifInts c l => "if_icmp" ++ c.suffix ++ " " ++ l.name
  | goto l => "goto " ++ l.name
  | dup => "dup"
  | pop => "pop"
  | new c => "new " ++ c
  | getStatic f d => "getstatic " ++ f ++ " " ++ d
  | invokeVirtual m => "invokevirtual " ++ m.text
  | invokeSpecial m => "invokespecial " ++ m.text

end Instr

/-- A label, or an instruction. -/
inductive Item where
  | label (label : Label)
  | op (instr : Instr)
deriving DecidableEq, Repr, Inhabited

namespace Item

/-- The instruction of an item, if it is one. -/
def instr? : Item → Option Instr
  | op i => some i
  | label _ => none

/-- The label of an item, if it is one. -/
def label? : Item → Option Label
  | label l => some l
  | op _ => none

/-- The item as the assembler reads it. -/
def text : Item → String
  | label l => l.name ++ ":"
  | op i => i.text

end Item

end Dam
