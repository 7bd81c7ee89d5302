import Labyrinth.Location
import Labyrinth.Ty

/-!
# Tokens

A `Token` is a word, number or mark of the language or the end of the text, and a `Lexeme` a token
with its place.
-/

namespace Labyrinth

/-- The reserved words that are no truth values. -/
inductive Keyword where
  | func
  | cond
  | loop
  | ret
  | type (ty : Ty)
deriving DecidableEq, Repr

namespace Keyword

def text : Keyword → String
  | func => "func"
  | cond => "if"
  | loop => "while"
  | ret => "return"
  | type ty => ty.keyword

def all : List Keyword :=
  [func, cond, loop, ret, type .int, type .float, type .bool, type .void]

end Keyword

inductive Operator where
  | plus
  | minus
  | star
  | slash
  | percent
  | less
  | greater
  | lessEq
  | greaterEq
  | equal
  | notEqual
  | and
  | or
  | not
  | assign
deriving DecidableEq, Repr

def Operator.text : Operator → String
  | plus => "+"
  | minus => "-"
  | star => "*"
  | slash => "/"
  | percent => "%"
  | less => "<"
  | greater => ">"
  | lessEq => "<="
  | greaterEq => ">="
  | equal => "=="
  | notEqual => "!="
  | and => "&&"
  | or => "||"
  | not => "!"
  | assign => "="

inductive Punctuation where
  | openParen
  | closeParen
  | openBrace
  | closeBrace
  | comma
  | semicolon
deriving DecidableEq, Repr

def Punctuation.text : Punctuation → String
  | openParen => "("
  | closeParen => ")"
  | openBrace => "\x7b"
  | closeBrace => "\x7d"
  | comma => ","
  | semicolon => ";"

inductive Token where
  /-- Digits, with or without a fraction, as they are written. -/
  | number (raw : String)
  | boolean (value : Bool)
  | identifier (name : String)
  | keyword (word : Keyword)
  | operator (op : Operator)
  | punctuation (mark : Punctuation)
  | endOfInput
deriving DecidableEq, Repr

namespace Token

/-- The text of a token in the source. -/
def lexeme : Token → String
  | number raw => raw
  | boolean true => "true"
  | boolean false => "false"
  | identifier name => name
  | keyword word => word.text
  | operator op => op.text
  | punctuation mark => mark.text
  | endOfInput => ""

/-- The name of a token in messages. -/
def describe : Token → String
  | endOfInput => "end of input"
  | t => "'" ++ t.lexeme ++ "'"

/-- The name of a token's class. -/
def kind : Token → String
  | number _ => "Number"
  | boolean _ => "Boolean"
  | identifier _ => "Identifier"
  | keyword _ => "Keyword"
  | operator _ => "Operator"
  | punctuation _ => "Symbol"
  | endOfInput => "EndOfInput"

/-- The words that are no identifiers. -/
def reserved : List Token :=
  [boolean true, boolean false] ++ Keyword.all.map keyword

/-- The token of a word. -/
def ofWord (w : String) : Token :=
  (reserved.find? (·.lexeme = w)).getD (identifier w)

end Token

/-- A token with the place of its first character. -/
structure Lexeme where
  token : Token
  loc : Location
deriving DecidableEq, Repr

end Labyrinth
