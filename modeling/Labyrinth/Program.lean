import Labyrinth.Token

/-!
# Programs

The tree of a program. Every node knows the place of its first token; an expression in parentheses
starts at the parenthesis.
-/

namespace Labyrinth

inductive BinaryOp where
  | add
  | sub
  | mul
  | div
  | mod
  | eq
  | ne
  | lt
  | le
  | gt
  | ge
  | and
  | or
deriving DecidableEq, Repr

namespace BinaryOp

def token : BinaryOp → Operator
  | add => .plus
  | sub => .minus
  | mul => .star
  | div => .slash
  | mod => .percent
  | eq => .equal
  | ne => .notEqual
  | lt => .less
  | le => .lessEq
  | gt => .greater
  | ge => .greaterEq
  | and => .and
  | or => .or

def symbol (op : BinaryOp) : String :=
  op.token.text

def all : List BinaryOp :=
  [add, sub, mul, div, mod, eq, ne, lt, le, gt, ge, and, or]

/-- How tightly an operator binds. -/
def level : BinaryOp → Nat
  | or => 0
  | and => 1
  | eq | ne => 2
  | lt | le | gt | ge => 3
  | add | sub => 4
  | mul | div | mod => 5

/-- The operator of a level that a token stands for. -/
def ofToken? (level : Nat) (t : Token) : Option BinaryOp :=
  all.find? fun op => op.level = level ∧ Token.operator op.token = t

end BinaryOp

inductive UnaryOp where
  | neg
  | not
deriving DecidableEq, Repr

namespace UnaryOp

def token : UnaryOp → Operator
  | neg => .minus
  | not => .not

def symbol (op : UnaryOp) : String :=
  op.token.text

def ofToken? : Token → Option UnaryOp
  | .operator .minus => some neg
  | .operator .not => some not
  | _ => none

end UnaryOp

inductive Expr where
  | int (loc : Location) (value : Int64)
  /-- The text is kept beside the value. -/
  | float (loc : Location) (raw : String) (value : Float)
  | bool (loc : Location) (value : Bool)
  | var (loc : Location) (name : String)
  | binary (loc : Location) (op : BinaryOp) (left right : Expr)
  | unary (loc : Location) (op : UnaryOp) (operand : Expr)
  | call (loc : Location) (name : String) (args : List Expr)

namespace Expr

def loc : Expr → Location
  | int loc _ | float loc _ _ | bool loc _ | var loc _ | binary loc _ _ _ | unary loc _ _
  | call loc _ _ => loc

/-- The same expression at another place. -/
def relocate (loc : Location) : Expr → Expr
  | int _ value => int loc value
  | float _ raw value => float loc raw value
  | bool _ value => bool loc value
  | var _ name => var loc name
  | binary _ op left right => binary loc op left right
  | unary _ op operand => unary loc op operand
  | call _ name args => call loc name args

end Expr

inductive Stmt where
  | declare (loc : Location) (ty : Ty) (name : String) (init : Expr)
  | assign (loc : Location) (name : String) (value : Expr)
  | cond (loc : Location) (test : Expr) (body : List Stmt)
  | loop (loc : Location) (test : Expr) (body : List Stmt)
  | ret (loc : Location) (value : Option Expr)
  /-- An expression whose value is not used. -/
  | eval (value : Expr)
  | block (loc : Location) (body : List Stmt)

namespace Stmt

def loc : Stmt → Location
  | declare loc _ _ _ | assign loc _ _ | cond loc _ _ | loop loc _ _ | ret loc _ | block loc _ => loc
  | eval value => value.loc

mutual

/-- Whether a statement ends in a return on a simple view of it: one of its statements always
returns, an `if` never does, and a loop only if its test is the literal `true`. -/
def returns : Stmt → Bool
  | ret _ _ => true
  | block _ body => anyReturns body
  | loop _ (.bool _ true) body => anyReturns body
  | _ => false

def anyReturns : List Stmt → Bool
  | [] => false
  | s :: ss => returns s || anyReturns ss

end

end Stmt

structure Param where
  loc : Location
  ty : Ty
  name : String

structure Function where
  loc : Location
  ret : Ty
  name : String
  params : List Param
  body : List Stmt

/-- Whether a function's body ends in a return. -/
def Function.returns (f : Function) : Bool :=
  Stmt.anyReturns f.body

inductive Decl where
  | function (f : Function)
  | stmt (s : Stmt)

/-- The declarations of a source text in their order. -/
abbrev Program := List Decl

end Labyrinth
