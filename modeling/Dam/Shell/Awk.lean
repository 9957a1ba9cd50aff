import Dam.Text.Digit
import Dam.Text.Split

/-!
# Awk programs

The part of the language that works on the lines of one input with whole numbers and strings:
assignments, conditions, `for` and `while` loops, `print` and `printf`, and the functions on
strings `length`, `index` and `substr`. There are no fields but the whole line.

Reading and running take `fuel`, which bounds how deep calls are nested and how often loops
turn.
-/

namespace Dam.Shell.Awk

/-! ## Syntax -/

/-- A token. -/
inductive Tok where
  | number (n : Nat)
  | string (s : String)
  | name (s : String)
  | sign (s : String)
deriving DecidableEq

/-- An expression. -/
inductive Expr where
  | number (n : Nat)
  | string (s : String)
  | name (x : String)
  | line
  | call (f : String) (args : List Expr)
  | binary (op : String) (a b : Expr)
  | assign (x : String) (e : Expr)
  | increment (x : String)

/-- A statement. -/
inductive Stmt where
  | expression (e : Expr)
  | print (es : List Expr)
  | printf (es : List Expr)
  | loop (start : List Stmt) (test : Expr) (step body : List Stmt)
  | ifElse (test : Expr) (yes no : List Stmt)

/-- When the statements of a rule are run. -/
inductive Moment where
  | first | line | last
deriving DecidableEq

/-! ## Reading -/

/-- The signs that consist of two characters. -/
def doubleSigns : List (List Char) :=
  ["++", "<=", ">=", "==", "!="].map String.toList

/-- The characters of a string up to its closing quote, and what follows it. -/
def stringEnd (done : List Char) : List Char → Option (String × List Char)
  | [] => none
  | '\x22' :: cs => some (String.ofList done.reverse, cs)
  | '\x5c' :: 'n' :: cs => stringEnd ('\n' :: done) cs
  | '\x5c' :: 't' :: cs => stringEnd ('\t' :: done) cs
  | '\x5c' :: c :: cs => stringEnd (c :: done) cs
  | c :: cs => stringEnd (c :: done) cs

/-- The tokens of a program. -/
def tokens : (fuel : Nat) → List Char → Option (List Tok)
  | 0, _ => none
  | _, [] => some []
  | fuel + 1, c :: cs => do
    if c = ' ' ∨ c = '\t' then tokens fuel cs
    else if c = '\x22' then
      let (s, rest) ← stringEnd [] cs
      return .string s :: (← tokens fuel rest)
    else if isDigit c then
      let digits := (c :: cs).takeWhile isDigit
      return .number (digitsValue digits) :: (← tokens fuel ((c :: cs).drop digits.length))
    else if c.isAlpha ∨ c = '_' then
      let letters := (c :: cs).takeWhile fun d => d.isAlphanum || d == '_'
      return .name (String.ofList letters) :: (← tokens fuel ((c :: cs).drop letters.length))
    else if c = '\n' then return .sign ";" :: (← tokens fuel cs)
    else if doubleSigns.contains (c :: cs.take 1) then
      return .sign (String.ofList (c :: cs.take 1)) :: (← tokens fuel (cs.drop 1))
    else return .sign (String.singleton c) :: (← tokens fuel cs)

/-- Takes something from the front of a row of tokens. -/
abbrev Read := StateT (List Tok) Option

namespace Read

/-- Takes a token if it is next. -/
def takeIf (t : Tok) : Read Bool := do
  match ← get with
  | t' :: rest => if t' = t then set rest; return true else return false
  | [] => return false

/-- Takes a sign that must be next. -/
def expect (s : String) : Read Unit := do if !(← takeIf (.sign s)) then failure

/-- Takes one of some signs, if one of them is next. -/
def takeSign? (signs : List String) : Read (Option String) := do
  match ← get with
  | .sign s :: rest => if signs.contains s then set rest; return some s else return none
  | _ => return none

/-- Whether an operand can be next, which is then joined to the one before. -/
def beginsOperand : Read Bool := do
  match ← get with
  | .number _ :: _ | .string _ :: _ | .name _ :: _ | .sign "$" :: _ | .sign "(" :: _ => return true
  | _ => return false

mutual

/-- An expression. -/
def expression : (fuel : Nat) → Read Expr
  | 0 => failure
  | fuel + 1 => do
    match ← get with
    | .name x :: .sign "=" :: rest =>
      set rest
      return .assign x (← expression fuel)
    | _ => compared fuel

/-- Two operands that may be compared. -/
def compared : (fuel : Nat) → Read Expr
  | 0 => failure
  | fuel + 1 => do
    let a ← joined fuel (← added fuel)
    match ← takeSign? ["<", "<=", ">", ">=", "==", "!="] with
    | some op => return .binary op a (← joined fuel (← added fuel))
    | none => return a

/-- Operands that stand side by side. -/
def joined : (fuel : Nat) → Expr → Read Expr
  | 0, _ => failure
  | fuel + 1, a => do
    if ← beginsOperand then joined fuel (.binary "" a (← added fuel)) else return a

/-- A sum. -/
def added : (fuel : Nat) → Read Expr
  | 0 => failure
  | fuel + 1 => do moreOf fuel ["+", "-"] (← multiplied fuel)

/-- A product. -/
def multiplied : (fuel : Nat) → Read Expr
  | 0 => failure
  | fuel + 1 => do moreOf fuel ["*", "%"] (← operand fuel)

/-- Further operands behind some of the operators, from left to right. -/
def moreOf : (fuel : Nat) → List String → Expr → Read Expr
  | 0, _, _ => failure
  | fuel + 1, ops, a => do
    match ← takeSign? ops with
    | some op =>
      let b ← if op = "+" ∨ op = "-" then multiplied fuel else operand fuel
      moreOf fuel ops (.binary op a b)
    | none => return a

/-- An operand. -/
def operand : (fuel : Nat) → Read Expr
  | 0 => failure
  | fuel + 1 => do
    match ← get with
    | .number n :: rest => set rest; return .number n
    | .string s :: rest => set rest; return .string s
    | .sign "$" :: .number 0 :: rest => set rest; return .line
    | .sign "(" :: rest =>
      set rest
      let e ← expression fuel
      expect ")"
      return e
    | .name x :: .sign "++" :: rest => set rest; return .increment x
    | .name f :: .sign "(" :: rest =>
      set rest
      let args ← arguments fuel
      expect ")"
      return .call f args
    | .name x :: rest => set rest; return .name x
    | _ => failure

/-- Expressions between commas. -/
def arguments : (fuel : Nat) → Read (List Expr)
  | 0 => failure
  | fuel + 1 => do
    match ← get with
    | .sign ")" :: _ | .sign ";" :: _ | .sign "\x7d" :: _ | [] => return []
    | _ =>
      let e ← expression fuel
      if ← takeIf (.sign ",") then return e :: (← arguments fuel) else return [e]

/-- A statement, or several in braces. -/
def statement : (fuel : Nat) → Read (List Stmt)
  | 0 => failure
  | fuel + 1 => do
    if ← takeIf (.sign "\x7b") then
      let body ← statements fuel
      expect "\x7d"
      return body
    else if ← takeIf (.name "print") then return [.print (← arguments fuel)]
    else if ← takeIf (.name "printf") then return [.printf (← arguments fuel)]
    else if ← takeIf (.name "while") then
      expect "("
      let test ← expression fuel
      expect ")"
      return [.loop [] test [] (← statement fuel)]
    else if ← takeIf (.name "for") then
      expect "("
      let start ← expression fuel
      expect ";"
      let test ← expression fuel
      expect ";"
      let step ← expression fuel
      expect ")"
      return [.loop [.expression start] test [.expression step] (← statement fuel)]
    else if ← takeIf (.name "if") then
      expect "("
      let test ← expression fuel
      expect ")"
      let yes ← statement fuel
      let _ ← takeIf (.sign ";")
      if ← takeIf (.name "else") then return [.ifElse test yes (← statement fuel)]
      return [.ifElse test yes []]
    else return [.expression (← expression fuel)]

/-- Statements up to a brace. -/
def statements : (fuel : Nat) → Read (List Stmt)
  | 0 => failure
  | fuel + 1 => do
    if ← takeIf (.sign ";") then statements fuel
    else
      match ← get with
      | .sign "\x7d" :: _ | [] => return []
      | _ =>
        let s ← statement fuel
        return s ++ (← statements fuel)

end

/-- The rules of a program. -/
def rules : (fuel : Nat) → Read (List (Moment × List Stmt))
  | 0 => failure
  | fuel + 1 => do
    if ← takeIf (.sign ";") then rules fuel
    else if (← get).isEmpty then return []
    else
      let moment ←
        if ← takeIf (.name "BEGIN") then pure .first
        else if ← takeIf (.name "END") then pure .last
        else pure .line
      expect "\x7b"
      let body ← statements fuel
      expect "\x7d"
      return (moment, body) :: (← rules fuel)

end Read

/-! ## Running -/

/-- A value. A name that has none yet stands for the empty string. -/
inductive Value where
  | number (n : Int)
  | string (s : String)

namespace Value

/-- The value as a string. -/
def text : Value → String
  | .number n => toString n
  | .string s => s

/-- The value as a number, that of the digits in front of a string. -/
def toInt : Value → Int
  | .number n => n
  | .string s =>
    match s.toList with
    | '-' :: cs => -(digitsValue (cs.takeWhile isDigit) : Int)
    | cs => digitsValue (cs.takeWhile isDigit)

/-- Whether a condition with this value holds. -/
def isTrue : Value → Bool
  | .number n => n != 0
  | .string s => !s.isEmpty

/-- The value of a condition. -/
def ofBool (b : Bool) : Value := .number (if b then 1 else 0)

end Value

/-- The state of a run: the values of names, the current line and the output so far. -/
structure State where
  values : List (String × Value)
  line : String
  output : String

/-- A run, which fails where a program does what is not known here. -/
abbrev Run := StateT State Option

/-- Gives a name a value. -/
def assign (x : String) (v : Value) : Run Value := do
  modify fun s => { s with values := (x, v) :: s.values.filter fun y => y.1 != x }
  return v

/-- The value of a name. -/
def valueOf (x : String) : Run Value := do
  return ((← get).values.lookup x).getD (.string "")

/-- Whether two values are in some order, as numbers if both are. -/
def compares (op : String) (a b : Value) : Bool :=
  let order :=
    match a, b with
    | .string s, .string u => compare s u
    | a, b => compare a.toInt b.toInt
  match op with
  | "<" => order == .lt
  | "<=" => order != .gt
  | ">" => order == .gt
  | ">=" => order != .lt
  | "==" => order == .eq
  | _ => order != .eq

/-- What an operator makes of two values. -/
def operate (op : String) (a b : Value) : Option Value :=
  match op with
  | "" => some (.string (a.text ++ b.text))
  | "+" => some (.number (a.toInt + b.toInt))
  | "-" => some (.number (a.toInt - b.toInt))
  | "*" => some (.number (a.toInt * b.toInt))
  | "%" => if b.toInt = 0 then none else some (.number (a.toInt.tmod b.toInt))
  | op => some (.ofBool (compares op a b))

/-- The first place of a string in another one, from one on; zero if there is none. -/
def indexOf (s part : List Char) (place : Nat) : Nat :=
  if part.isPrefixOf s then place
  else
    match s with
    | [] => 0
    | _ :: rest => indexOf rest part (place + 1)

/-- What a function makes of its arguments. -/
def apply (f : String) (args : List Value) : Option Value :=
  match f, args with
  | "length", [v] => some (.number v.text.length)
  | "index", [v, w] => some (.number (indexOf v.text.toList w.text.toList 1))
  | "substr", [v, m] => some (.string (String.ofList (v.text.toList.drop (m.toInt - 1).toNat)))
  | "substr", [v, m, n] =>
    some (.string (String.ofList ((v.text.toList.drop (m.toInt - 1).toNat).take n.toInt.toNat)))
  | _, _ => none

/-- The value of an expression. -/
def eval : Expr → Run Value
  | .number n => return .number n
  | .string s => return .string s
  | .name x => valueOf x
  | .line => return .string (← get).line
  | .call f args => do
    let values ← args.attach.mapM fun ⟨a, _⟩ => eval a
    apply f values
  | .binary op a b => do
    let v ← eval a
    let w ← eval b
    operate op v w
  | .assign x e => do assign x (← eval e)
  | .increment x => do
    let v ← valueOf x
    let _ ← assign x (.number (v.toInt + 1))
    return .number v.toInt

/-- Fills the places of a format. -/
def format : List Char → List Value → Option String
  | [], _ => some ""
  | '%' :: '%' :: cs, vs => do return "%" ++ (← format cs vs)
  | '%' :: 's' :: cs, v :: vs => do return v.text ++ (← format cs vs)
  | '%' :: 'd' :: cs, v :: vs => do return toString v.toInt ++ (← format cs vs)
  | '%' :: '.' :: '0' :: 'f' :: cs, v :: vs => do return toString v.toInt ++ (← format cs vs)
  | '%' :: _, _ => none
  | c :: cs, vs => do return String.singleton c ++ (← format cs vs)

/-- Adds to the output. -/
def write (s : String) : Run Unit := modify fun st => { st with output := st.output ++ s }

mutual

/-- Runs a statement. -/
def step : (fuel : Nat) → Stmt → Run Unit
  | 0, _ => failure
  | fuel + 1, s => do
    match s with
    | .expression e => let _ ← eval e
    | .print es =>
      let values ← (if es.isEmpty then [.line] else es).mapM eval
      let shown := values.map Value.text
      write (" ".intercalate shown ++ "\n")
    | .printf es =>
      match ← es.mapM eval with
      | v :: vs => write (← format v.text.toList vs)
      | [] => failure
    | .ifElse test yes no => steps fuel (if (← eval test).isTrue then yes else no)
    | .loop start test next body =>
      steps fuel start
      if (← eval test).isTrue then
        steps fuel body
        steps fuel next
        step fuel (.loop [] test next body)

/-- Runs statements one after the other. -/
def steps : (fuel : Nat) → List Stmt → Run Unit
  | 0, _ => failure
  | _, [] => return ()
  | fuel + 1, s :: rest => do
    step fuel s
    steps fuel rest

end

/-- Runs the rules of one moment. -/
def runRules (fuel : Nat) (moment : Moment) (all : List (Moment × List Stmt)) : Run Unit := do
  for (m, body) in all do
    if m = moment then steps fuel body

/-- The output of a program on an input. -/
def run? (program input : String) : Option String := do
  let ts ← tokens (program.length + 1) program.toList
  let (all, _) ← (Read.rules (16 * ts.length + 16)).run ts
  let lines := (splitAtEach '\n' input.toList).map String.ofList
  let lines := if lines.getLast? = some "" then lines.dropLast else lines
  let fuel := 1000000
  let action : Run Unit := do
    runRules fuel .first all
    for line in lines do
      modify fun s => { s with line }
      runRules fuel .line all
    runRules fuel .last all
  let (_, s) ← action.run ⟨[], "", ""⟩
  return s.output

end Dam.Shell.Awk
