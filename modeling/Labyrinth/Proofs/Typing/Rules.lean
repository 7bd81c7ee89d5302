import Labyrinth.Program
import Labyrinth.Builtin
import Mathlib.Logic.Function.Basic

/-!
# The rules of types

The types of a program by rules, over environments that are never changed: `Expr.HasType E e ty`,
`Stmt.Proper E s E'` for a statement behind which `E'` holds, `Function.Proper` and `Program.Proper`.
Nothing here says in which order a rule's premises are looked at, or what is wrong where no rule applies.
-/

namespace Labyrinth

/-- What is visible at a point of a program. -/
@[ext]
structure Env where
  /-- The variables of the innermost scope. -/
  inner : String → Option Ty
  /-- The variables around it, of each name the innermost. -/
  outer : String → Option Ty
  functions : String → Option Signature
  /-- The return type of the function around, if there is one. -/
  ret : Option Ty

namespace Env

/-- At the start of a program only the built-in functions are visible. -/
def initial : Env where
  inner := fun _ => none
  outer := fun _ => none
  functions := fun name => (Builtin.find? name).map Builtin.signature
  ret := none

/-- A name stands for its innermost declaration. -/
def slot? (E : Env) (name : String) : Option Ty :=
  (E.inner name).or (E.outer name)

/-- Inside a new scope. -/
def nested (E : Env) : Env :=
  { E with inner := fun _ => none, outer := E.slot? }

def withVariable (E : Env) (name : String) (ty : Ty) : Env :=
  { E with inner := Function.update E.inner name (some ty) }

def withFunction (E : Env) (f : Function) : Env :=
  { E with functions := Function.update E.functions f.name (some ⟨f.ret, f.params.map (.exact ·.ty)⟩) }

/-- At the start of a function's body its parameters make up the innermost scope, and the function
itself is visible. -/
def inside (E : Env) (f : Function) : Env :=
  { (E.withFunction f).nested with
    inner := fun name => (f.params.find? (·.name = name)).map (·.ty), ret := some f.ret }

end Env

/-! ### Operators and slots -/

/-- The types of the operands and of the value of an operator. -/
inductive BinaryOp.Takes : BinaryOp → Ty → Ty → Ty → Prop
  | ints {op} : op ∈ [add, sub, mul, div, mod] → Takes op .int .int .int
  | floats {op l r} : op ∈ [add, sub, mul, div, mod] → l.isNumeric → r.isNumeric →
      l = .float ∨ r = .float → Takes op l r .float
  | comparison {op ty} : op ∈ [eq, ne, lt, le, gt, ge] → ty ≠ .void → Takes op ty ty .bool
  | connective {op} : op ∈ [and, or] → Takes op .bool .bool .bool

inductive UnaryOp.Takes : UnaryOp → Ty → Ty → Prop
  | neg {ty} : ty.isNumeric → Takes neg ty ty
  | not : Takes not .bool .bool

/-- A value of the second type may stand where the first is declared. -/
inductive Ty.Holds : Ty → Ty → Prop
  | same {ty} : Holds ty ty
  | widened : Holds .float .int

inductive Slot.Holds : Slot → Ty → Prop
  | exact {slot ty : Ty} : slot.Holds ty → Holds (.exact slot) ty
  | any {ty} : ty ≠ .void → Holds .any ty

/-! ### Expressions -/

namespace Expr

mutual

inductive HasType (E : Env) : Expr → Ty → Prop
  | int {loc value} : HasType E (.int loc value) .int
  | float {loc raw value} : HasType E (.float loc raw value) .float
  | bool {loc value} : HasType E (.bool loc value) .bool
  | var {loc name ty} : E.slot? name = some ty → HasType E (.var loc name) ty
  | binary {loc op left right l r ty} : HasType E left l → HasType E right r → op.Takes l r ty →
      HasType E (.binary loc op left right) ty
  | unary {loc op operand t ty} : HasType E operand t → op.Takes t ty →
      HasType E (.unary loc op operand) ty
  | call {loc name sig args} : E.functions name = some sig → Supply E sig.params args →
      HasType E (.call loc name args) sig.ret

/-- As many arguments as slots, and each fits. -/
inductive Supply (E : Env) : List Slot → List Expr → Prop
  | nil : Supply E [] []
  | cons {slot slots arg args ty} : HasType E arg ty → slot.Holds ty → Supply E slots args →
      Supply E (slot :: slots) (arg :: args)

end

end Expr

/-! ### Statements -/

namespace Stmt

/-- A return, or a block or an endless loop with such a statement in it. -/
inductive MustReturn : Stmt → Prop
  | ret {loc value} : MustReturn (.ret loc value)
  | block {loc body s} : s ∈ body → MustReturn s → MustReturn (.block loc body)
  | loop {loc place body s} : s ∈ body → MustReturn s →
      MustReturn (.loop loc (.bool place true) body)

mutual

inductive Proper : Env → Stmt → Env → Prop
  | declare {E loc ty name init got} : init.HasType E got → ty.Holds got → E.inner name = none →
      Proper E (.declare loc ty name init) (E.withVariable name ty)
  | assign {E loc name value slot got} : E.slot? name = some slot → value.HasType E got →
      slot.Holds got → Proper E (.assign loc name value) E
  | cond {E loc test body} : test.HasType E .bool → ProperAll E.nested body →
      Proper E (.cond loc test body) E
  | loop {E loc test body} : test.HasType E .bool → ProperAll E.nested body →
      Proper E (.loop loc test body) E
  | leave {E loc} : E.ret = some .void → Proper E (.ret loc none) E
  | ret {E loc value slot got} : E.ret = some slot → value.HasType E got → slot.Holds got →
      Proper E (.ret loc (some value)) E
  | eval {E value ty} : value.HasType E ty → Proper E (.eval value) E
  | block {E loc body} : ProperAll E.nested body → Proper E (.block loc body) E

inductive ProperAll : Env → List Stmt → Prop
  | nil {E} : ProperAll E []
  | cons {E E' s ss} : Proper E s E' → ProperAll E' ss → ProperAll E (s :: ss)

end

end Stmt

/-! ### Programs -/

structure Function.Proper (E : Env) (f : Function) : Prop where
  /-- Neither a built-in nor a function in front has the name. -/
  fresh : E.functions f.name = none
  valued : ∀ x ∈ f.params, x.ty ≠ .void
  distinct : (f.params.map (·.name)).Nodup
  body : Stmt.ProperAll (E.inside f) f.body
  returns : f.ret ≠ .void → ∃ s ∈ f.body, s.MustReturn

namespace Program

inductive ProperFrom : Env → Program → Prop
  | nil {E} : ProperFrom E []
  | function {E f ds} : f.Proper E → ProperFrom (E.withFunction f) ds →
      ProperFrom E (.function f :: ds)
  | stmt {E E' s ds} : s.Proper E E' → ProperFrom E' ds → ProperFrom E (.stmt s :: ds)

/-- The rules of types hold of a program. -/
def Proper (p : Program) : Prop := ProperFrom .initial p

end Program

end Labyrinth
