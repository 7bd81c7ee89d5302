import Labyrinth.Code.Instruction
import Labyrinth.Typing.Check

/-!
# From a program to code

The code of an expression leaves its value on top of the stack; the code of a function starts with
its name and takes its arguments from the stack, the last one first.

| source | code |
|---|---|
| `l op r` | code of `l`, code of `r`, `op` |
| `f(a, b)` | code of `a`, code of `b`, `CALL f 2` |
| `if (t) b` | code of `t`, `JMP_IF_FALSE end`, code of `b`, `LABEL end` |
| `while (t) b` | `LABEL start`, code of `t`, `JMP_IF_FALSE end`, code of `b`, `JMP start`, `LABEL end` |

An integer in a slot for a float is widened. The scopes of the program are followed on the way, so
a program that was not checked before can fail here with a semantic problem.
-/

namespace Labyrinth

/-- Why a program has no code, beyond the rules of its types. -/
inductive CodeProblem where
  | topLevelStatement
  | argumentsGiven (name : String)
  | printArguments (got : Nat)
deriving DecidableEq, Repr

def CodeProblem.message : CodeProblem → String
  | topLevelStatement => "Top-level statements must be functions"
  | argumentsGiven name => "'" ++ name ++ "' does not take arguments"
  | printArguments got => "'print' requires exactly one argument, got " ++ toString got

inductive CodeError where
  | semantic (e : SemanticError)
  | refused (problem : CodeProblem) (loc : Location)
deriving DecidableEq, Repr

/-- The code of an expression with what a slot needs behind it. -/
def Expr.widen (Γ : Context) (slot : Ty) (e : Expr) (code : Code) : Except CodeError Code :=
  if slot = .float then
    match e.typeOf Γ with
    | .error err => .error (.semantic err)
    | .ok ty => .ok (if ty = .int then code ++ [.toFloat] else code)
  else .ok code

/-- What a call of a built-in has to look like. -/
def Builtin.checkCall (name : String) (loc : Location) (argc : Nat) : Except CodeError Unit :=
  match Builtin.find? name with
  | none => .ok ()
  | some b =>
    if b.isRestricted ∧ argc ≠ 0 then .error (.refused (.argumentsGiven name) loc)
    else if b.action = some .print ∧ argc ≠ 1 then .error (.refused (.printArguments argc) loc)
    else .ok ()

namespace Expr

mutual

def code (Γ : Context) : Expr → Except CodeError Code
  | int _ value => .ok [.pushInt value]
  | float _ _ value => .ok [.pushFloat value]
  | bool _ value => .ok [.pushInt (if value then 1 else 0)]
  | var _ name => .ok [.load name]
  | binary _ op left right => do
    let l ← code Γ left
    let r ← code Γ right
    return l ++ r ++ [.binary op]
  | unary _ op operand => do
    let c ← code Γ operand
    return c ++ [match op with | .neg => .neg | .not => .not]
  | call loc name args => do
    Builtin.checkCall name loc args.length
    let c ← codeArgs Γ (((Γ.function? name).map (·.params)).getD []) args
    return c ++ [.call name args.length]

/-- The code of arguments for their slots; there may be more arguments than slots. -/
def codeArgs (Γ : Context) : List Slot → List Expr → Except CodeError Code
  | _, [] => .ok []
  | slots, arg :: args => do
    let c ← code Γ arg
    let c ← match slots.head? with
      | some (.exact ty) => widen Γ ty arg c
      | _ => pure c
    return c ++ (← codeArgs Γ slots.tail args)

end

/-- The code of an expression for a slot. -/
def codeInto (Γ : Context) (slot : Ty) (e : Expr) : Except CodeError Code := do
  widen Γ slot e (← e.code Γ)

end Expr

/-- The name of the label of a number. -/
def labelName (n : Nat) : String :=
  "L" ++ toString n

/-- What a statement leaves behind: the context after it, the number of the next label, and its
code. -/
structure Compiled where
  context : Context
  label : Nat
  code : Code

namespace Stmt

mutual

/-- The code of a statement whose first label has the number `next`. -/
def code (Γ : Context) (next : Nat) : Stmt → Except CodeError Compiled
  | declare loc ty name init => do
    let c ← init.codeInto Γ ty
    let Γ' ← (Γ.declare loc name ty).mapError .semantic
    return ⟨Γ', next, c ++ [.store name]⟩
  | assign loc name value => do
    let slot ← (Γ.resolve loc name).mapError .semantic
    let c ← value.codeInto Γ slot
    return ⟨Γ, next, c ++ [.store name]⟩
  | cond _ test body => do
    let t ← test.code Γ
    let b ← codeAll Γ.push (next + 1) body
    return ⟨Γ, b.label,
      t ++ [.jumpIfFalse (labelName next)] ++ b.code ++ [.label (labelName next)]⟩
  | loop _ test body => do
    let t ← test.code Γ
    let b ← codeAll Γ.push (next + 2) body
    return ⟨Γ, b.label,
      [.label (labelName next)] ++ t ++ [.jumpIfFalse (labelName (next + 1))] ++ b.code ++
        [.jump (labelName next), .label (labelName (next + 1))]⟩
  | ret _ none => .ok ⟨Γ, next, [.retVoid]⟩
  | ret _ (some value) => do
    let c ← value.codeInto Γ (Γ.ret.getD .void)
    return ⟨Γ, next, c ++ [.ret]⟩
  | eval value => do
    let c ← value.code Γ
    return ⟨Γ, next, c ++ [.nop]⟩
  | block _ body => do
    let b ← codeAll Γ.push next body
    return ⟨Γ, b.label, b.code⟩

/-- The code of statements one after the other. -/
def codeAll (Γ : Context) (next : Nat) : List Stmt → Except CodeError Compiled
  | [] => .ok ⟨Γ, next, []⟩
  | s :: ss => do
    let first ← code Γ next s
    let rest ← codeAll first.context first.label ss
    return { rest with code := first.code ++ rest.code }

end

end Stmt

/-- The code of a function whose first label has the number `next`. -/
def Function.code (Γ : Context) (next : Nat) (f : Function) : Except CodeError Compiled := do
  let inside ← (Γ.enter f).mapError .semantic
  let body ← Stmt.codeAll inside next f.body
  return ⟨Γ.addFunction f, body.label,
    [.func f.name f.params.length] ++ (f.params.reverse.map (.store ·.name)) ++ body.code ++ [.fin]⟩

namespace Program

/-- The code of declarations one after the other. -/
def codeFrom (Γ : Context) (next : Nat) : Program → Except CodeError Code
  | [] => .ok []
  | .stmt s :: _ => .error (.refused .topLevelStatement s.loc)
  | .function f :: ds => do
    let c ← f.code Γ next
    return c.code ++ (← codeFrom c.context c.label ds)

/-- The code of a program. -/
def code (p : Program) : Except CodeError Code :=
  codeFrom .initial 0 p

end Program

end Labyrinth
