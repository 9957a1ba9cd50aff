import Dam.Shell
import Dam.Text.Digit

/-!
# Reading shell scripts

A recursive descent parser on characters, because words and commands contain each other: a
word may hold a whole script, up to the parenthesis that closes it.

Each function takes `fuel`, which bounds how deep they call each other. Between two characters
there are at most eight calls.
-/

namespace Dam.Shell

/-- Takes something from the front of a script. -/
abbrev Read := StateT (List Char) Option

/-- The characters that names consist of. -/
def isNameChar (c : Char) : Bool := c.isAlphanum || c == '_'

/-- The characters that end a word. -/
def endsWord (c : Char) : Bool := " \t\n;&|()<>".toList.contains c

/-- The words that end a list of statements. -/
def closingWords : List String := ["then", "elif", "else", "fi", "do", "done", "esac"]

namespace Read

/-- Takes some characters if they are next. -/
def takeIf (s : String) : Read Bool := do
  if s.toList.isPrefixOf (← get) then
    modify (·.drop s.length)
    return true
  else return false

/-- Takes what must be next. -/
def expect (s : String) : Read Unit := do if !(← takeIf s) then failure

/-- Takes the characters up to the first that does not belong. -/
def takeWhile (belongs : Char → Bool) : Read String := do
  let front := (← get).takeWhile belongs
  modify (·.drop front.length)
  return String.ofList front

/-- Passes over blanks, and over the ends of lines if asked for. -/
def skip (lines : Bool) : Read Unit := do
  let _ ← takeWhile fun c => c == ' ' || c == '\t' || lines && c == '\n'

/-- The next word, if it has nothing special in it. It stays. -/
def peekWord : Read String := do
  skip false
  return String.ofList ((← get).takeWhile fun c => !endsWord c)

/-- Takes a word that must be next. -/
def expectWord (s : String) : Read Unit := do if (← peekWord) = s then expect s else failure

/-- The parameter behind a dollar sign. -/
def parameter : Read Parameter := do
  match ← get with
  | '@' :: rest => set rest; return .arguments
  | '*' :: rest => set rest; return .joined
  | '#' :: rest => set rest; return .count
  | '?' :: rest => set rest; return .status
  | '$' :: rest => set rest; return .processId
  | '!' :: rest => set rest; return .jobId
  | c :: rest =>
    if isDigit c then
      set rest
      return .argument (c.toNat - 48)
    else
      let name ← takeWhile isNameChar
      if name.isEmpty then failure else return .name name
  | [] => failure

/-- What a word assigns to a name, if it does. -/
def assignment? (w : Word) : Option (String × Word) :=
  match w with
  | .text s :: rest =>
    let name := s.toList.takeWhile isNameChar
    match s.toList.drop name.length with
    | '=' :: value =>
      if name.isEmpty || isDigit (name.headD '0') then none
      else some (String.ofList name, .text (String.ofList value) :: rest)
    | _ => none
  | _ => none

mutual

/-- The pieces of a word, or those up to a double quote. -/
def pieces : (fuel : Nat) → (quoted : Bool) → Read Word
  | 0, _ => failure
  | fuel + 1, quoted => do
    match ← get with
    | [] => if quoted then failure else return []
    | '\x22' :: rest =>
      if quoted then return []
      set rest
      let inner ← pieces fuel true
      expect "\x22"
      return .text "" :: inner ++ (← pieces fuel false)
    | '\x27' :: rest =>
      if quoted then plain fuel quoted '\x27' rest
      else
        set rest
        let inner ← takeWhile (· != '\x27')
        expect "'"
        return .text inner :: (← pieces fuel quoted)
    | '\x5c' :: c :: rest =>
      if quoted && !"\x22\x5c$\x60".toList.contains c then
        set rest
        return .text (String.ofList ['\x5c', c]) :: (← pieces fuel quoted)
      else plain fuel quoted c rest
    | '$' :: rest =>
      set rest
      let piece ← dollar fuel quoted
      return piece :: (← pieces fuel quoted)
    | c :: rest =>
      if !quoted && endsWord c then return []
      -- text up to the next special character is one piece, so that assignments can be told
      let more ← do
        set rest
        takeWhile fun c => !endsWord c && !"\x22\x27\x5c$".toList.contains c
      return .text (String.ofList (c :: more.toList)) :: (← pieces fuel quoted)

/-- A piece that consists of one character, and those behind it. -/
def plain : (fuel : Nat) → (quoted : Bool) → Char → List Char → Read Word
  | 0, _, _, _ => failure
  | fuel + 1, quoted, c, rest => do
    set rest
    return .text (String.singleton c) :: (← pieces fuel quoted)

/-- The piece behind a dollar sign. -/
def dollar : (fuel : Nat) → (quoted : Bool) → Read Piece
  | 0, _ => failure
  | fuel + 1, quoted => do
    if ← takeIf "((" then
      let inner ← operands fuel
      expect "))"
      return .arithmetic inner
    else if ← takeIf "(" then
      let script ← statements fuel
      skip true
      expect ")"
      return .output script quoted
    else return .parameter (← parameter) quoted

/-- The pieces of an arithmetic expression. -/
def operands : (fuel : Nat) → Read Word
  | 0 => failure
  | fuel + 1 => do
    match ← get with
    | ')' :: _ | [] => return []
    | '$' :: rest =>
      set rest
      let piece ← dollar fuel true
      return piece :: (← operands fuel)
    | c :: rest =>
      set rest
      return .text (String.singleton c) :: (← operands fuel)

/-- Redirections behind a statement. -/
def redirects : (fuel : Nat) → Read (List Redirect)
  | 0 => failure
  | fuel + 1 => do
    skip false
    let (stream, rest) :=
      match ← get with
      | '2' :: '>' :: rest => (2, '>' :: rest)
      | '1' :: '>' :: rest => (1, '>' :: rest)
      | cs => (1, cs)
    set rest
    if ← takeIf ">&" then
      match (← takeWhile isDigit).toList with
      | [c] => return .copy stream (c.toNat - 48) :: (← redirects fuel)
      | _ => failure
    else
      let append ← takeIf ">>"
      if append || (← takeIf ">") then
        skip false
        let target ← pieces fuel false
        return .file stream append target :: (← redirects fuel)
      else return []

/-- The words and redirections of a simple command. -/
def arguments : (fuel : Nat) → Read (List Word × List Redirect)
  | 0 => failure
  | fuel + 1 => do
    match ← redirects fuel with
    | [] =>
      match ← pieces fuel false with
      | [] => return ([], [])
      | word =>
        let (words, rs) ← arguments fuel
        return (word :: words, rs)
    | r =>
      let (words, rs) ← arguments fuel
      return (words, r ++ rs)

/-- The branches of a choice. -/
def branches : (fuel : Nat) → Read (List (List Word × List Statement))
  | 0 => failure
  | fuel + 1 => do
    skip true
    if (← peekWord) = "esac" then return []
    let pattern ← pieces fuel false
    skip false
    expect ")"
    let body ← statements fuel
    skip true
    let _ ← takeIf ";;"
    return ([pattern], body) :: (← branches fuel)

/-- What follows the test of a condition. -/
def alternatives : (fuel : Nat) → Read (List Statement × List Statement)
  | 0 => failure
  | fuel + 1 => do
    expectWord "then"
    let yes ← statements fuel
    match ← peekWord with
    | "else" =>
      expect "else"
      let no ← statements fuel
      expectWord "fi"
      return (yes, no)
    | "elif" =>
      expect "elif"
      let test ← statements fuel
      let (yes', no) ← alternatives fuel
      return (yes, [.ifElse test yes' no []])
    | _ =>
      expectWord "fi"
      return (yes, [])

/-- A statement without operators. -/
def command : (fuel : Nat) → Read Statement
  | 0 => failure
  | fuel + 1 => do
    match ← peekWord with
    | "if" =>
      expect "if"
      let test ← statements fuel
      let (yes, no) ← alternatives fuel
      return .ifElse test yes no (← redirects fuel)
    | "while" =>
      expect "while"
      let test ← statements fuel
      expectWord "do"
      let body ← statements fuel
      expectWord "done"
      return .loop test body (← redirects fuel)
    | "case" =>
      expect "case"
      skip false
      let word ← pieces fuel false
      expectWord "in"
      let all ← branches fuel
      expectWord "esac"
      return .choose word all
    | _ =>
      if ← takeIf "(" then
        let items ← statements fuel
        skip true
        expect ")"
        return .subshell items (← redirects fuel)
      else
        let (words, rs) ← arguments fuel
        let assignments := (words.map assignment?).takeWhile Option.isSome
        if words.isEmpty && rs.isEmpty then failure
        return .simple (assignments.filterMap id) (words.drop assignments.length) rs

/-- Statements that depend on the one before them. -/
def chain : (fuel : Nat) → Statement → Read Statement
  | 0, _ => failure
  | fuel + 1, s => do
    skip false
    if ← takeIf "&&" then
      skip true
      chain fuel (.both s (← command fuel))
    else if ← takeIf "||" then
      skip true
      chain fuel (.either s (← command fuel))
    else return s

/-- Statements up to what closes them. -/
def statements : (fuel : Nat) → Read (List Statement)
  | 0 => failure
  | fuel + 1 => do
    skip true
    let next ← get
    if next.isEmpty || next.headD ' ' == ')' || ";;".toList.isPrefixOf next then return []
    if closingWords.contains (← peekWord) then return []
    let s ← chain fuel (← command fuel)
    if ← takeIf "&" then return .background s :: (← statements fuel)
    if ";;".toList.isPrefixOf (← get) then return [s]
    let _ ← takeIf ";"
    return s :: (← statements fuel)

end

end Read

/-- The statements of a script. -/
def parse? (script : String) : Option (List Statement) :=
  match (Read.statements (8 * script.length + 8)).run script.toList with
  | some (items, []) => some items
  | _ => none

end Dam.Shell
