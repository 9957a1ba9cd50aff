import Dam.Code.ClassText
import Dam.Generator.Stmt
import Dam.Program.Parser
import Dam.Token.Lexer

/-!
# Compilation

The whole way from a program text to the text of a class, and the list of
everything that is wrong with a text.
-/

namespace Dam

/-- Why a text was not compiled. There can be many syntax errors, but only one of any other kind. -/
inductive CompileError where
  | lex (error : LexError)
  | parse (errors : List ParseError)
  | code (error : CodeError)
deriving DecidableEq, Repr

/-- A message about a program, with the line it is about. -/
structure Diagnostic where
  message : String
  line : Option Nat
deriving DecidableEq, Repr

namespace CompileError

/-- The wording of an error, with all places. -/
def message : CompileError → String
  | .lex e => e.message
  | .parse es => "\n".intercalate (es.map ParseError.message)
  | .code e => e.message

/-- The error as messages about lines. -/
def diagnostics : CompileError → List Diagnostic
  | .lex e => [⟨e.fault.message, some e.span.line⟩]
  | .parse es => es.map fun e => ⟨e.fault.message, some e.span.line⟩
  | .code e => [⟨e.fault.message, e.line⟩]

end CompileError

/-- The program of a text. -/
def parseSource (source : String) : Except CompileError Program := do
  let tokens ← (lex source).mapError .lex
  (parse tokens).mapError .parse

/-- The assembly of a text. -/
def assemble (source : String) : Except CompileError Assembly := do
  let program ← parseSource source
  program.assemble.mapError .code

/-- A text goes through lexer, parser and generator, up to the first that refuses it. -/
theorem assemble_eq (source : String) :
    assemble source = match lex source with
      | .error e => .error (.lex e)
      | .ok tokens =>
        match parse tokens with
        | .error es => .error (.parse es)
        | .ok p => p.assemble.mapError .code := by
  unfold assemble parseSource
  cases lex source with
  | error e => rfl
  | ok tokens =>
      dsimp only
      change ((parse tokens).mapError CompileError.parse >>= fun p =>
        p.assemble.mapError CompileError.code) = _
      cases parse tokens <;> rfl

/-- The class text of a text. -/
def compile (source className : String) (sourceFile : Option String) :
    Except CompileError String := do
  let assembly ← assemble source
  return assembly.classText className sourceFile

theorem compile_eq (source className : String) (sourceFile : Option String) :
    compile source className sourceFile = match assemble source with
      | .ok a => .ok (a.classText className sourceFile)
      | .error e => .error e := by
  unfold compile
  cases assemble source <;> rfl

/-- Whether a text can be compiled. -/
def check (source : String) : Except CompileError Unit := do
  let _ ← assemble source

/-- Everything that is wrong with a text. -/
def checkDiagnostics (source : String) : List Diagnostic :=
  match check source with
  | .ok () => []
  | .error e => e.diagnostics

theorem checkDiagnostics_eq (source : String) :
    checkDiagnostics source = match assemble source with
      | .ok _ => []
      | .error e => e.diagnostics := by
  unfold checkDiagnostics check
  cases assemble source <;> rfl

end Dam
