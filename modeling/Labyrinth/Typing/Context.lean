import Labyrinth.Program
import Labyrinth.Builtin

/-!
# What is known at a point of a program

A `Context` holds the variables of the open scopes, the functions declared so far and the return
type of the function around the point. A name stands for the declaration in the innermost scope
that has one.
-/

namespace Labyrinth

/-- Why a program is rejected. -/
inductive SemanticProblem where
  | variableRedeclared (name : String)
  | variableUndeclared (name : String)
  | functionRedeclared (name : String)
  | functionUndeclared (name : String)
  | voidParameter (name : String)
  | missingReturn (name : String)
  | strayReturn
  | returnMismatch (expected got : Ty)
  | initMismatch (slot : Ty) (name : String) (got : Ty)
  | assignMismatch (slot : Ty) (name : String) (got : Ty)
  | conditionMismatch (construct : Keyword) (got : Ty)
  | negOperand (got : Ty)
  | notOperand (got : Ty)
  | voidOperand (op : BinaryOp)
  | numericOperands (op : BinaryOp) (left right : Ty)
  | sameOperands (op : BinaryOp) (left right : Ty)
  | boolOperands (op : BinaryOp) (left right : Ty)
  | argumentCount (name : String) (expected got : Nat)
  | argumentMismatch (index : Nat) (name : String) (expected : Slot) (got : Ty)
deriving DecidableEq, Repr

namespace SemanticProblem

/-- The start of a message about an operator. -/
def aboutOperator (op : BinaryOp) : String :=
  "Operator '" ++ op.symbol ++ "' "

/-- The end of a message about two operands. -/
def gotBoth (left right : Ty) : String :=
  ", got " ++ left.keyword ++ " and " ++ right.keyword

def message : SemanticProblem → String
  | variableRedeclared name => "Variable '" ++ name ++ "' already declared in this scope"
  | variableUndeclared name => "Undeclared variable '" ++ name ++ "'"
  | functionRedeclared name => "Function '" ++ name ++ "' already declared"
  | functionUndeclared name => "Undeclared function '" ++ name ++ "'"
  | voidParameter name => "Parameter '" ++ name ++ "' cannot have type void"
  | missingReturn name => "Function '" ++ name ++ "' must return on all paths"
  | strayReturn => "'return' outside of a function"
  | returnMismatch expected got =>
    "Return type mismatch: expected " ++ expected.keyword ++ ", got " ++ got.keyword
  | initMismatch slot name got =>
    "Type mismatch: cannot initialize " ++ slot.keyword ++ " variable '" ++ name ++ "' with " ++
      got.keyword
  | assignMismatch slot name got =>
    "Type mismatch: cannot assign " ++ got.keyword ++ " to " ++ slot.keyword ++ " variable '" ++
      name ++ "'"
  | conditionMismatch construct got =>
    "Condition of '" ++ construct.text ++ "' must be bool, got " ++ got.keyword
  | negOperand got => "Unary '-' requires a numeric operand, got " ++ got.keyword
  | notOperand got => "Unary '!' requires a bool operand, got " ++ got.keyword
  | voidOperand op => aboutOperator op ++ "cannot be applied to a void value"
  | numericOperands op left right =>
    aboutOperator op ++ "requires numeric operands" ++ gotBoth left right
  | sameOperands op left right =>
    aboutOperator op ++ "requires operands of the same type" ++ gotBoth left right
  | boolOperands op left right => aboutOperator op ++ "requires bool operands" ++ gotBoth left right
  | argumentCount name expected got =>
    "Function '" ++ name ++ "' expects " ++ toString expected ++ " argument(s), got " ++ toString got
  | argumentMismatch index name expected got =>
    "Argument " ++ toString index ++ " of '" ++ name ++ "': expected " ++
      (match expected with
        | .exact ty => ty.keyword
        | .any => "a value") ++
      ", got " ++ got.keyword

end SemanticProblem

structure SemanticError where
  problem : SemanticProblem
  loc : Location
deriving DecidableEq, Repr

def SemanticError.message (e : SemanticError) : String :=
  e.problem.message

/-- The variables declared in one block. -/
abbrev Scope := List (String × Ty)

structure Context where
  /-- The scope that declarations go to. -/
  inner : Scope
  /-- The scopes around it, from the inside to the outside. -/
  outer : List Scope
  functions : List (String × Signature)
  /-- The return type of the function around, if there is one. -/
  ret : Option Ty

namespace Context

/-- The context at the start of a program. -/
def initial : Context where
  inner := []
  outer := []
  functions := Builtin.table.map fun b => (b.name, b.signature)
  ret := none

/-- The context inside a new block. -/
def push (Γ : Context) : Context :=
  { Γ with inner := [], outer := Γ.inner :: Γ.outer }

def lookup? (Γ : Context) (name : String) : Option Ty :=
  (Γ.inner :: Γ.outer).findSome? (·.lookup name)

def function? (Γ : Context) (name : String) : Option Signature :=
  Γ.functions.lookup name

/-- The type of a variable that is used at a place. -/
def resolve (Γ : Context) (loc : Location) (name : String) : Except SemanticError Ty :=
  match Γ.lookup? name with
  | some ty => .ok ty
  | none => .error ⟨.variableUndeclared name, loc⟩

/-- Adds a variable to the innermost scope, which may not have one of that name. -/
def declare (Γ : Context) (loc : Location) (name : String) (ty : Ty) :
    Except SemanticError Context :=
  if (Γ.inner.lookup name).isSome then .error ⟨.variableRedeclared name, loc⟩
  else .ok { Γ with inner := (name, ty) :: Γ.inner }

/-- Adds the parameters of a function to the innermost scope. -/
def declareParams (Γ : Context) : List Param → Except SemanticError Context
  | [] => .ok Γ
  | p :: ps =>
    if p.ty = .void then .error ⟨.voidParameter p.name, p.loc⟩
    else do (← Γ.declare p.loc p.name p.ty).declareParams ps

/-- Makes a function known. -/
def addFunction (Γ : Context) (f : Function) : Context :=
  { Γ with functions := (f.name, ⟨f.ret, f.params.map (.exact ·.ty)⟩) :: Γ.functions }

/-- The context at the start of a function's body, where the function itself is known. -/
def enter (Γ : Context) (f : Function) : Except SemanticError Context :=
  { (Γ.addFunction f).push with ret := some f.ret }.declareParams f.params

end Context

end Labyrinth
