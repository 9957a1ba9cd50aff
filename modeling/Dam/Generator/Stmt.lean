import Dam.Generator.Expr

/-!
# Code of statements

Statements leave the operand stack as they found it. `Generator.generate` gives the
code of a program, and `Generator.finish` makes it an assembly: when the program
reads input, a scanner is opened in front of everything else.
-/

namespace Dam

namespace Gen

/-- The stream that `print` writes to. -/
def systemOut : Instr := .getStatic "java/lang/System/out" "Ljava/io/PrintStream;"

/-- The stream that `read` reads from. -/
def systemIn : Instr := .getStatic "java/lang/System/in" "Ljava/io/InputStream;"

/-- The class of the scanner. -/
def scannerClass : String := "java/util/Scanner"

/-- Writes a value of a type and ends the line. -/
def println (type : ValueType) : Method :=
  ⟨"java/io/PrintStream", "println", "(" ++ type.descriptor ++ ")V"⟩

/-- Reads the next line. -/
def nextLine : Method := ⟨scannerClass, "nextLine", "()Ljava/lang/String;"⟩

/-- The constructor of the scanner. -/
def scannerInit : Method := ⟨scannerClass, "<init>", "(Ljava/io/InputStream;)V"⟩

/-- Opens the scanner. -/
def openScanner (slot : Nat) : List Instr :=
  [.new scannerClass, .dup, systemIn, .invokeSpecial scannerInit, .storeRef slot]

/-- Stores a value in a variable that is declared by it. -/
def declare (line : Nat) (name : String) (value : Gen ValueType) : Gen Unit := do
  let type ← value
  let slot ← orRefuse line .tooManyLocals (← onFrame fun f => f.define name type)
  emit (.store type slot)

/-- Prints a value. -/
def print (value : Gen ValueType) : Gen Unit := do
  emit systemOut
  let type ← value
  emit (.invokeVirtual (println type))

/-- Reads a line into a variable. Nothing is emitted unless the variable is declared. -/
def read (line : Nat) (name : String) : Gen Unit := do
  let _ ← orRefuse line (.undefinedVariable name) (← onFrame fun f => (f.slot? name, f))
  let scanner ← orRefuse line .tooManyLocals (← onFrame Frame.useScanner)
  emit (.loadRef scanner)
  emit (.invokeVirtual nextLine)
  let slot ← orRefuse line (.undefinedVariable name) (← onFrame fun f => f.assign name .string)
  emit (.store .string slot)

/-- Runs a statement if a condition holds. -/
def ifThen (condition : Label → Gen Unit) (yes : Gen Unit) : Gen Unit := do
  let group ← newGroup
  condition (.numbered "END" group)
  place (.numbered "THEN" group)
  yes
  place (.numbered "END" group)

/-- Runs one of two statements. -/
def ifElse (condition : Label → Gen Unit) (yes no : Gen Unit) : Gen Unit := do
  let group ← newGroup
  condition (.numbered "ELSE" group)
  place (.numbered "THEN" group)
  yes
  emit (.goto (.numbered "END" group))
  place (.numbered "ELSE" group)
  no
  place (.numbered "END" group)

/-- Runs a statement while a condition holds. -/
def whileDo (condition : Label → Gen Unit) (body : Gen Unit) : Gen Unit := do
  let group ← newGroup
  place (.numbered "LOOP_START" group)
  condition (.numbered "LOOP_END" group)
  body
  emit (.goto (.numbered "LOOP_START" group))
  place (.numbered "LOOP_END" group)

/-- An expression whose value is not used. An assignment stores it at once, any other is dropped. -/
def discard : Expr → Gen Unit
  | .assign n x a => do
    let _ ← typed n (assign false n.line x (value a))
  | e => do
    let _ ← value e
    emit .pop

mutual

/-- The code of a statement. -/
def stmt : Stmt → Gen Unit
  | .declare span x e => declare span.line x (value e)
  | .print _ e => print (value e)
  | .read span x => read span.line x
  | .ifThen _ e yes => ifThen (test e) (stmt yes)
  | .ifElse _ e yes no => ifElse (test e) (stmt yes) (stmt no)
  | .whileDo _ e body => whileDo (test e) (stmt body)
  | .block _ ss => stmts ss
  | .expression _ e => discard e

/-- The code of statements one after the other, up to the first that is refused. -/
def stmts : List Stmt → Gen Unit
  | [] => pure ()
  | s :: ss => do
    stmt s
    stmts ss

end

end Gen

namespace Generator

/-- Appends the code of a program. -/
def generate (g : Generator) (p : Program) : Except CodeError Unit × Generator :=
  (Gen.stmts p.stmts).run g

/-- The code with the scanner opened in front of it. -/
def finishedItems (g : Generator) : List Item :=
  match g.frame.scanner with
  | some slot => (Gen.openScanner slot).map .op ++ g.items
  | none => g.items

/-- Checks the code and sizes its frame. -/
def finish (g : Generator) : Except CodeError Assembly :=
  (Assembly.ofItems g.finishedItems g.frame.locals).mapError fun e => ⟨.link e, none⟩

end Generator

/-- The assembly of a program. -/
def Program.assemble (p : Program) : Except CodeError Assembly :=
  match Generator.empty.generate p with
  | (.error e, _) => .error e
  | (.ok (), g) => g.finish

end Dam
