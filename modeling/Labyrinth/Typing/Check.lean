import Labyrinth.Typing.Context

/-!
# The types of a program

`Expr.typeOf` is the type of an expression, `Stmt.check` the context behind a statement and
`Program.check` the verdict on a program, or else the first problem in the order of the text.
-/

namespace Labyrinth

/-- The type of an operator's value. -/
def BinaryOp.typeOf (op : BinaryOp) (left right : Ty) : Except SemanticProblem Ty :=
  if left = .void ∨ right = .void then .error (.voidOperand op)
  else match op with
    | .add | .sub | .mul | .div | .mod =>
      if !left.isNumeric || !right.isNumeric then .error (.numericOperands op left right)
      else if left = .float ∨ right = .float then .ok .float
      else .ok .int
    | .eq | .ne | .lt | .le | .gt | .ge =>
      if left = right then .ok .bool else .error (.sameOperands op left right)
    | .and | .or =>
      if left = .bool ∧ right = .bool then .ok .bool else .error (.boolOperands op left right)

def UnaryOp.typeOf (op : UnaryOp) (operand : Ty) : Except SemanticProblem Ty :=
  match op with
  | .neg => if operand.isNumeric then .ok operand else .error (.negOperand operand)
  | .not => if operand = .bool then .ok .bool else .error (.notOperand operand)

namespace Expr

mutual

/-- The type of an expression. -/
def typeOf (Γ : Context) : Expr → Except SemanticError Ty
  | int _ _ => .ok .int
  | float _ _ _ => .ok .float
  | bool _ _ => .ok .bool
  | var loc name => Γ.resolve loc name
  | binary loc op left right => do
    let l ← typeOf Γ left
    let r ← typeOf Γ right
    (op.typeOf l r).mapError (⟨·, loc⟩)
  | unary loc op operand => do
    let ty ← typeOf Γ operand
    (op.typeOf ty).mapError (⟨·, loc⟩)
  | call loc name args =>
    match Γ.function? name with
    | none => .error ⟨.functionUndeclared name, loc⟩
    | some f =>
      if args.length ≠ f.params.length then
        .error ⟨.argumentCount name f.params.length args.length, loc⟩
      else do
        checkArgs Γ name 1 f.params args
        return f.ret

/-- Checks arguments against their slots, the first of them being the argument of number
`index`. -/
def checkArgs (Γ : Context) (name : String) (index : Nat) :
    List Slot → List Expr → Except SemanticError Unit
  | slot :: slots, arg :: args => do
    let ty ← typeOf Γ arg
    if slot.admits ty then checkArgs Γ name (index + 1) slots args
    else .error ⟨.argumentMismatch index name slot ty, arg.loc⟩
  | _, _ => .ok ()

end

end Expr

namespace Stmt

/-- Checks the condition of an `if` or a loop. -/
def checkCondition (Γ : Context) (construct : Keyword) (test : Expr) :
    Except SemanticError Unit := do
  let ty ← test.typeOf Γ
  if ty = .bool then return () else throw ⟨.conditionMismatch construct ty, test.loc⟩

/-- The type that a return gives. -/
def returnedType (Γ : Context) : Option Expr → Except SemanticError Ty
  | none => .ok .void
  | some value => value.typeOf Γ

/-- Whether a function may return: nothing if it is void, and else a value that fits. -/
def mayReturn (declared given : Ty) : Bool :=
  if declared = .void ∨ given = .void then declared = given else declared.accepts given

mutual

/-- The context behind a statement. -/
def check (Γ : Context) : Stmt → Except SemanticError Context
  | declare loc ty name init => do
    let got ← init.typeOf Γ
    if ty.accepts got then Γ.declare loc name ty
    else throw ⟨.initMismatch ty name got, loc⟩
  | assign loc name value => do
    let slot ← Γ.resolve loc name
    let got ← value.typeOf Γ
    if slot.accepts got then return Γ
    else throw ⟨.assignMismatch slot name got, loc⟩
  | cond _ test body => do
    checkCondition Γ .cond test
    checkAll Γ.push body
    return Γ
  | loop _ test body => do
    checkCondition Γ .loop test
    checkAll Γ.push body
    return Γ
  | ret loc value =>
    match Γ.ret with
    | none => throw ⟨.strayReturn, loc⟩
    | some declared => do
      let got ← returnedType Γ value
      if mayReturn declared got then return Γ
      else throw ⟨.returnMismatch declared got, loc⟩
  | eval value => do
    discard (value.typeOf Γ)
    return Γ
  | block _ body => do
    checkAll Γ.push body
    return Γ

/-- Checks statements one after the other. -/
def checkAll (Γ : Context) : List Stmt → Except SemanticError Unit
  | [] => .ok ()
  | s :: ss => do checkAll (← check Γ s) ss

end

end Stmt

/-- Checks a function, and makes it known. -/
def Function.check (Γ : Context) (f : Function) : Except SemanticError Context := do
  if (Γ.function? f.name).isSome then throw ⟨.functionRedeclared f.name, f.loc⟩
  Stmt.checkAll (← Γ.enter f) f.body
  if f.ret ≠ .void ∧ !f.returns then throw ⟨.missingReturn f.name, f.loc⟩
  return Γ.addFunction f

def Decl.check (Γ : Context) : Decl → Except SemanticError Context
  | .function f => f.check Γ
  | .stmt s => s.check Γ

namespace Program

/-- Checks declarations one after the other. -/
def checkFrom (Γ : Context) : Program → Except SemanticError Unit
  | [] => .ok ()
  | d :: ds => do checkFrom (← d.check Γ) ds

/-- Checks a program. -/
def check (p : Program) : Except SemanticError Unit :=
  checkFrom .initial p

end Program

end Labyrinth
