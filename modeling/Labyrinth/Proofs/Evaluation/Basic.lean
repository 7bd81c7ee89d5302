import Labyrinth.Proofs.Code.Marks
import Labyrinth.Proofs.Discipline.Values

/-!
# The meaning of programs

`Program.eval` follows the tree of a program, with one store for all of its functions and no stack. Calls
and repetitions may be nested and go on as far as the fuel allows, and what stops an evaluation is a
`Stop`.
-/

namespace Labyrinth

/-- What stops an evaluation. -/
inductive Stop where
  | fault (f : Fault)
  | divisionByZero
  /-- A value is missing, which does not happen in a program that is in order. -/
  | noValue
  | outOfFuel

/-- Whether a run that fails does so for the reason that stopped an evaluation. -/
def Stop.Agrees : Stop → Fault → Prop
  | fault f, g => f = g
  | divisionByZero, .divisionByZero _ => True
  | _, _ => False

/-- What goes on in the world, up to a value. -/
abbrev Evaluation := StateT World (Except Stop)

/-- What calls do. -/
abbrev Calls := String → List Value → Evaluation (Option Value)

namespace Evaluation

/-- What is there, or else a reason to stop. -/
def ofOption {α : Type} (stop : Stop) : Option α → Evaluation α
  | some a => return a
  | none => throw stop

/-- The value that there has to be. -/
def value (x : Evaluation (Option Value)) : Evaluation Value := do ofOption .noValue (← x)

/-- A part of the world that may fail. -/
def ofWorld {α : Type} (f : World → Except Fault (α × World)) : Evaluation α := fun w =>
  (f w).mapError .fault

end Evaluation

/-- The value of type `ty` in a slot. -/
def Ty.widen (slot ty : Ty) (v : Value) : Value :=
  if slot.widens ty then .float v.toFloat else v

namespace Expr

mutual

/-- The value of an expression, from the left to the right. -/
def eval (calls : Calls) (Γ : Context) : Expr → Evaluation (Option Value)
  | int _ n => return some (.int n)
  | float _ _ x => return some (.float x)
  | bool _ b => return some (.ofBool b)
  | var _ name => do
    return some (← .ofOption (.fault (.undefinedVariable name)) ((← get).store.get? name))
  | binary _ op left right => do
    let a ← (eval calls Γ left).value
    let b ← (eval calls Γ right).value
    return some (← .ofOption .divisionByZero (op.eval? a b))
  | unary _ op operand => do return some (op.eval (← (eval calls Γ operand).value))
  | call _ name args => do calls name (← evalArgs calls Γ (slots Γ name) args)

def evalArgs (calls : Calls) (Γ : Context) : List Slot → List Expr → Evaluation (List Value)
  | slot :: slots, arg :: args => do
    let v ← (eval calls Γ arg).value
    let vs ← evalArgs calls Γ slots args
    return (slot.into (arg.ty Γ)).widen (arg.ty Γ) v :: vs
  | _, _ => return []

end

/-- The value of an expression in a slot. -/
def evalInto (calls : Calls) (Γ : Context) (slot : Ty) (e : Expr) : Evaluation (Option Value) := do
  return (← e.eval calls Γ).map (slot.widen (e.ty Γ))

end Expr

/-- Where it goes on behind a statement. -/
inductive Flow where
  | next
  | returned (v : Option Value)

/-- Repeats a body while a test is true. -/
def Evaluation.repeatWhile (test : Evaluation Value) (body : Evaluation Flow) : Nat → Evaluation Flow
  | 0 => throw .outOfFuel
  | n + 1 => do
    if (← test).truthy then
      match ← body with
      | .next => repeatWhile test body n
      | .returned v => return .returned v
    else return .next

namespace Stmt

mutual

def run (calls : Calls) (fuel : Nat) (Γ : Context) : Stmt → Evaluation Flow
  | declare _ ty name init => do
    let v ← (init.evalInto calls Γ ty).value
    modify (·.assign name v)
    return .next
  | assign _ name value => do
    let v ← (value.evalInto calls Γ ((Γ.lookup? name).getD .void)).value
    modify (·.assign name v)
    return .next
  | cond _ test body => do
    if (← (test.eval calls Γ).value).truthy then runAll calls fuel Γ.push body else return .next
  | loop _ test body =>
    .repeatWhile (test.eval calls Γ).value (runAll calls fuel Γ.push body) fuel
  | ret _ none => return .returned none
  | ret _ (some value) => do return .returned (← value.evalInto calls Γ (Γ.ret.getD .void))
  | eval value => do
    let _ ← value.eval calls Γ
    return .next
  | block _ body => runAll calls fuel Γ.push body

def runAll (calls : Calls) (fuel : Nat) (Γ : Context) : List Stmt → Evaluation Flow
  | [] => return .next
  | s :: ss => do
    match ← run calls fuel Γ s with
    | .next => runAll calls fuel (s.after Γ) ss
    | .returned v => return .returned v

end

end Stmt

/-- A function in front of which the context is `Γ`: the parameters are stored from the last to the
first, and then the body is run. -/
def Function.apply (calls : Calls) (fuel : Nat) (Γ : Context) (f : Function) (args : List Value) :
    Evaluation (Option Value) := do
  modify (·.receive f.params.reverse args.reverse)
  match ← Stmt.runAll calls fuel (Γ.inside f) f.body with
  | .returned v => return v
  | .next => return none

namespace Program

def find? (p : Program) (name : String) : Option (Context × Function) :=
  p.functions.find? (·.2.name = name)

/-- A call of a built-in or a function, in which calls are nested less deep than the fuel. -/
def call (p : Program) : Nat → Calls
  | 0, _, _ => throw .outOfFuel
  | n + 1, name, args =>
    match Builtin.find? name with
    | some b =>
      match b.action with
      | some action => .ofWorld (·.perform action args)
      | none => throw (.fault (.unresolvedCall name))
    | none =>
      match p.find? name with
      | some (Γ, f) => f.apply (p.call n) n Γ args
      | none => throw (.fault (.unresolvedCall name))

/-- The value of `main` and the world that it leaves. -/
def eval (p : Program) (maze : Maze) (settings : Settings) (fuel : Nat) :
    Except Stop (Option Value × World) :=
  match p.find? "main" with
  | none => .error (.fault .missingMain)
  | some (Γ, f) => do
    let agent ← (Machine.startAgent maze settings).mapError .fault
    f.apply (p.call fuel) fuel Γ [] ⟨.empty, maze, agent, #[agent], ""⟩

end Program

end Labyrinth
