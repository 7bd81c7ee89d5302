import Labyrinth.Program
import Labyrinth.Double.Numeral

/-!
# From tokens to a program

`Program.ofLexemes` reads the whole of a list of tokens or names the first token that does not fit.
The operators of a level associate to the left, and the levels are read from the loosest to the
tightest.

Two counters keep the tree flat. `depth` counts the blocks, parentheses, arguments and prefix
operators that are open, and `height` also the operators of the chains that are being read.
-/

namespace Labyrinth

/-- What a token was needed for. -/
inductive Expected where
  | token (t : Token)
  | typeName
  | functionName
  | parameterName
  | variableName
  | expression
deriving DecidableEq, Repr

def Expected.describe : Expected → String
  | token t => t.describe
  | typeName => "type name"
  | functionName => "function name"
  | parameterName => "parameter name"
  | variableName => "variable name"
  | expression => "expression"

inductive SyntaxProblem where
  | unexpected (wanted : Expected) (got : Token)
  | tooDeep
  | integerRange (raw : String)
  | notFloat (raw : String)
deriving DecidableEq, Repr

structure SyntaxError where
  problem : SyntaxProblem
  loc : Location
deriving DecidableEq, Repr

def SyntaxError.message (e : SyntaxError) : String :=
  match e.problem with
  | .unexpected wanted got => "Expected " ++ wanted.describe ++ ", got " ++ got.describe
  | .tooDeep => "Nesting too deep"
  | .integerRange raw => "Integer literal '" ++ raw ++ "' is out of range"
  | .notFloat raw => "Invalid float literal '" ++ raw ++ "'"

/-- The greatest number of blocks, parentheses, arguments and prefix operators inside each other. -/
def maxNesting : Nat := 64

/-- The greatest height of an expression, each operator of a chain counted. -/
def maxHeight : Nat := 512

/-- What is left to read, from the current token on, and the counters. -/
structure Cursor where
  lexemes : List Lexeme
  depth : Nat := 0
  height : Nat := 0

namespace Cursor

def token (s : Cursor) : Token :=
  match s.lexemes with
  | [] => .endOfInput
  | l :: _ => l.token

/-- The token behind the current one. -/
def nextToken (s : Cursor) : Token :=
  match s.lexemes with
  | _ :: l :: _ => l.token
  | _ => .endOfInput

def loc (s : Cursor) : Location :=
  match s.lexemes with
  | [] => .nowhere
  | l :: _ => l.loc

/-- Goes on to the next token, if there is one. -/
def advance (s : Cursor) : Cursor :=
  match s.lexemes with
  | _ :: l :: ls => { s with lexemes := l :: ls }
  | _ => s

end Cursor

/-- A reader of tokens. The cursor of a failure is the one at which it arose. -/
abbrev Parser (α : Type) := EStateM SyntaxError Cursor α

namespace Parser

def fail {α : Type} (problem : SyntaxProblem) : Parser α := do
  throw ⟨problem, (← get).loc⟩

def unexpected {α : Type} (wanted : Expected) : Parser α := do
  fail (.unexpected wanted (← get).token)

def advance : Parser Unit :=
  modify Cursor.advance

def expect (t : Token) : Parser Unit := do
  if (← get).token = t then advance else unexpected (.token t)

def expectMark (mark : Punctuation) : Parser Unit :=
  expect (.punctuation mark)

def expectName (wanted : Expected) : Parser String := do
  match (← get).token with
  | .identifier name => advance; return name
  | _ => unexpected wanted

def expectType : Parser Ty := do
  match (← get).token with
  | .keyword (.type ty) => advance; return ty
  | _ => unexpected .typeName

/-! ### Nesting -/

/-- Opens a level. -/
def enter : Parser Unit := do
  let s ← get
  if maxNesting ≤ s.depth ∨ maxHeight ≤ s.height then fail .tooDeep
  set { s with depth := s.depth + 1, height := s.height + 1 }

/-- Closes a level. -/
def leave (s : Cursor) : Cursor :=
  { s with depth := s.depth - 1, height := s.height - 1 }

/-- Reads inside a level that is closed however the reading ends. -/
def nested {α : Type} (p : Parser α) : Parser α := do
  enter
  fun s => match p s with
    | .ok a s => .ok a (leave s)
    | .error e s => .error e (leave s)

/-! ### Lists -/

/-- Items with a comma between each two. An item takes a token at least, which bounds their
number. -/
def sepByComma {α : Type} (item : Parser α) : Parser (List α) := do
  go (← get).lexemes.length
where
  go : Nat → Parser (List α)
    | 0 => return []
    | bound + 1 => do
      let a ← item
      if (← get).token = .punctuation .comma then
        advance
        return a :: (← go bound)
      else return [a]

/-- Items in parentheses. -/
def parenthesized {α : Type} (item : Parser α) : Parser (List α) := do
  expectMark .openParen
  let items ←
    if (← get).token = .punctuation .closeParen then pure [] else sepByComma item
  expectMark .closeParen
  return items

/-! ### Expressions -/

/-- The expression of a number. -/
def literal (raw : String) (loc : Location) : Parser Expr :=
  if raw.toList.contains '.' then
    match Double.ofChars? raw.toList with
    | some value => return .float loc raw value
    | none => throw ⟨.notFloat raw, loc⟩
  else
    match Text.int64? raw.toList with
    | some value => return .int loc value
    | none => throw ⟨.integerRange raw, loc⟩

/-- The operators of a level behind an operand, and their right operands. Each operator raises the
height, which bounds their number. -/
def chainFrom (level : Nat) (operand : Parser Expr) : Nat → Expr → Parser Expr
  | 0, left => return left
  | bound + 1, left => do
    let s ← get
    match BinaryOp.ofToken? level s.token with
    | none => return left
    | some op =>
      if maxHeight ≤ s.height then fail .tooDeep
      set { s with height := s.height + 1 }
      advance
      let right ← operand
      chainFrom level operand bound (.binary left.loc op left right)

/-- Operands with operators of a level between them. -/
def chain (level : Nat) (operand : Parser Expr) : Parser Expr := do
  let first ← operand
  let s ← get
  let whole ← chainFrom level operand (maxHeight + 1) first
  modify fun t => { t with height := s.height }
  return whole

/-- An expression whose operands are read by `operand`. -/
def infixed (operand : Parser Expr) : Parser Expr :=
  (List.range 6).foldr chain operand

/-- An operand that starts with no prefix operator. Its parts are read by `inner`. -/
def primary (inner : Parser Expr) : Parser Expr := do
  let s ← get
  match s.token with
  | .number raw => advance; literal raw s.loc
  | .boolean value => advance; return .bool s.loc value
  | .identifier name =>
    advance
    if (← get).token = .punctuation .openParen then
      return .call s.loc name (← parenthesized inner)
    else return .var s.loc name
  | .punctuation .openParen =>
    advance
    let e ← inner
    expectMark .closeParen
    return e.relocate s.loc
  | _ => unexpected .expression

/-- An operand with its prefix operators. At most `room` levels are opened. -/
def operand : Nat → Parser Expr
  | 0 => fail .tooDeep
  | room + 1 => nested do
    let s ← get
    match UnaryOp.ofToken? s.token with
    | some op => advance; return .unary s.loc op (← operand room)
    | none => primary (infixed (operand room))

def expression (room : Nat) : Parser Expr :=
  infixed (operand room)

/-! ### Statements -/

/-- A declaration of a variable. -/
def declaration (room : Nat) : Parser Stmt := do
  let loc := (← get).loc
  let ty ← expectType
  let name ← expectName .variableName
  expect (.operator .assign)
  let init ← expression room
  expectMark .semicolon
  return .declare loc ty name init

/-- A condition in parentheses. -/
def condition (room : Nat) : Parser Expr := do
  expectMark .openParen
  let test ← expression room
  expectMark .closeParen
  return test

/-- A statement whose blocks are read by `block`. -/
def statement (room : Nat) (block : Parser (List Stmt)) : Parser Stmt := do
  let s ← get
  match s.token with
  | .keyword (.type .int) | .keyword (.type .float) | .keyword (.type .bool) => declaration room
  | .keyword .cond =>
    advance
    let test ← condition room
    return .cond s.loc test (← block)
  | .keyword .loop =>
    advance
    let test ← condition room
    return .loop s.loc test (← block)
  | .keyword .ret =>
    advance
    let value ←
      if (← get).token = .punctuation .semicolon then pure none else some <$> expression room
    expectMark .semicolon
    return .ret s.loc value
  | .punctuation .openBrace => return .block s.loc (← block)
  | .identifier name =>
    if s.nextToken = .operator .assign then
      advance
      advance
      let value ← expression room
      expectMark .semicolon
      return .assign s.loc name value
    else
      let value ← expression room
      expectMark .semicolon
      return .eval value
  | _ =>
    let value ← expression room
    expectMark .semicolon
    return .eval value

/-- The statements up to a closing brace. Each takes a token at least, which bounds their
number. -/
def statements (stmt : Parser Stmt) : Parser (List Stmt) := do
  go (← get).lexemes.length
where
  go : Nat → Parser (List Stmt)
    | 0 => unexpected (.token (.punctuation .closeBrace))
    | bound + 1 => do
      match (← get).token with
      | .punctuation .closeBrace => return []
      | .endOfInput => unexpected (.token (.punctuation .closeBrace))
      | _ =>
        let s ← stmt
        return s :: (← go bound)

/-- Statements in braces. At most `room` levels are opened. -/
def block : Nat → Parser (List Stmt)
  | 0 => do
    expectMark .openBrace
    fail .tooDeep
  | room + 1 => do
    expectMark .openBrace
    enter
    let body ← statements (statement room (block room))
    modify leave
    expectMark .closeBrace
    return body

/-! ### Declarations -/

def param : Parser Param := do
  let ty ← expectType
  let loc := (← get).loc
  let name ← expectName .parameterName
  return ⟨loc, ty, name⟩

def function : Parser Function := do
  let loc := (← get).loc
  expect (.keyword .func)
  let ret ← expectType
  let name ← expectName .functionName
  let params ← parenthesized param
  let body ← block maxNesting
  return ⟨loc, ret, name, params, body⟩

def decl : Parser Decl := do
  if (← get).token = .keyword .func then .function <$> function
  else .stmt <$> statement maxNesting (block maxNesting)

/-- The declarations up to the end of input. Each takes a token at least, which bounds their
number. -/
def program : Parser Program := do
  go (← get).lexemes.length
where
  go : Nat → Parser Program
    | 0 => return []
    | bound + 1 => do
      if (← get).token = .endOfInput then return []
      else
        let d ← decl
        return d :: (← go bound)

end Parser

namespace Program

/-- Reads a program from the tokens of a source text. -/
def ofLexemes (lexemes : List Lexeme) : Except SyntaxError Program :=
  match Parser.program { lexemes } with
  | .ok p _ => .ok p
  | .error e _ => .error e

end Program

end Labyrinth
