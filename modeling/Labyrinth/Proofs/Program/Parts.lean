import Labyrinth.Typing.Check

/-!
# Parts of a program

The contexts inside a program that is in order, its functions, and what it declares and calls.
`Program.Consistent` says that variables of one name have one type, and `Program.Quiet` that no function
which is called leaves a value that nothing uses.
-/

namespace Labyrinth

/-- The type of an expression that has one, and else `void`. -/
def Expr.ty (Γ : Context) (e : Expr) : Ty := (e.typeOf Γ).toOption.getD .void

/-! ### Contexts inside a program -/

namespace Context

/-- The context behind a declaration that is in order. -/
def withVariable (Γ : Context) (name : String) (ty : Ty) : Context :=
  { Γ with inner := (name, ty) :: Γ.inner }

/-- The context at the start of the body of a function that is in order. -/
def inside (Γ : Context) (f : Function) : Context :=
  { (Γ.addFunction f).push with
    inner := (f.params.map fun x => (x.name, x.ty)).reverse, ret := some f.ret }

end Context

/-- The context behind a statement that is in order. -/
def Stmt.after (Γ : Context) : Stmt → Context
  | declare _ ty name _ => Γ.withVariable name ty
  | _ => Γ

@[simp] theorem Stmt.after_ret (Γ : Context) (s : Stmt) : (s.after Γ).ret = Γ.ret := by
  cases s <;> rfl

/-- Whether an expression is the literal `true`. -/
def Expr.isTrue : Expr → Bool
  | .bool _ true => true
  | _ => false

theorem Expr.isTrue_iff {e : Expr} : e.isTrue ↔ ∃ loc, e = .bool loc true := by
  constructor
  · intro h
    unfold isTrue at h
    split at h
    · exact ⟨_, rfl⟩
    · cases h
  · rintro ⟨loc, rfl⟩
    rfl

theorem Stmt.returns_loop (k : Location) (test : Expr) (body : List Stmt) :
    (loop k test body).returns = (test.isTrue && anyReturns body) := by
  unfold returns Expr.isTrue
  split <;> simp_all

/-- The functions of declarations, each with the context in front of it. -/
def Program.functionsFrom (Γ : Context) : Program → List (Context × Function)
  | [] => []
  | .stmt _ :: ds => functionsFrom Γ ds
  | .function f :: ds => (Γ, f) :: functionsFrom (Γ.addFunction f) ds

/-- The functions of a program, each with the context in front of it. -/
def Program.functions (p : Program) : List (Context × Function) :=
  p.functionsFrom .initial

def Decl.function? : Decl → Option Function
  | .function f => some f
  | .stmt _ => none

theorem Program.mem_filterMap_function? {p : Program} {f : Function} :
    f ∈ p.filterMap Decl.function? ↔ .function f ∈ p := by
  rw [List.mem_filterMap]
  constructor
  · rintro ⟨d, hd, hf⟩
    cases d with
    | function g => cases hf; exact hd
    | stmt s => cases hf
  · exact fun hf => ⟨_, hf, rfl⟩

/-! ### Declared variables -/

namespace Stmt

mutual

/-- The variables that a statement declares, with their types. -/
def declared : Stmt → List (String × Ty)
  | declare _ ty name _ => [(name, ty)]
  | cond _ _ body | loop _ _ body | block _ body => declaredAll body
  | assign _ _ _ | ret _ _ | eval _ => []

def declaredAll : List Stmt → List (String × Ty)
  | [] => []
  | s :: ss => declared s ++ declaredAll ss

end

end Stmt

def Function.declared (f : Function) : List (String × Ty) :=
  f.params.map (fun x => (x.name, x.ty)) ++ Stmt.declaredAll f.body

def Decl.declared : Decl → List (String × Ty)
  | .function f => f.declared
  | .stmt s => s.declared

/-- The variables and parameters that a program declares, with their types. -/
def Program.declared (p : Program) : List (String × Ty) :=
  p.flatMap Decl.declared

/-- Declarations of one name have one type. -/
def Program.Consistent (p : Program) : Prop :=
  ∀ x ∈ p.declared, ∀ y ∈ p.declared, x.1 = y.1 → x.2 = y.2

instance (p : Program) : Decidable p.Consistent :=
  inferInstanceAs (Decidable (∀ x ∈ p.declared, ∀ y ∈ p.declared, x.1 = y.1 → x.2 = y.2))

/-! ### Values that are not used -/

namespace Stmt

mutual

/-- Whether one of the statements inside is an expression with a value, which nothing uses. -/
def discards (Γ : Context) : Stmt → Bool
  | eval value => value.ty Γ ≠ .void
  | cond _ _ body | loop _ _ body | block _ body => discardsAny Γ.push body
  | declare _ _ _ _ | assign _ _ _ | ret _ _ => false

def discardsAny (Γ : Context) : List Stmt → Bool
  | [] => false
  | s :: ss => discards Γ s || discardsAny (s.after Γ) ss

end

end Stmt

def Function.discards (Γ : Context) (f : Function) : Bool :=
  Stmt.discardsAny (Γ.inside f) f.body

/-! ### Called functions -/

namespace Expr

mutual

/-- The names of the functions that an expression calls. -/
def callees : Expr → List String
  | int _ _ | float _ _ _ | bool _ _ | var _ _ => []
  | binary _ _ left right => callees left ++ callees right
  | unary _ _ operand => callees operand
  | call _ name args => name :: calleesAll args

def calleesAll : List Expr → List String
  | [] => []
  | e :: es => callees e ++ calleesAll es

end

end Expr

namespace Stmt

mutual

/-- The names of the functions that a statement calls. -/
def callees : Stmt → List String
  | declare _ _ _ init => init.callees
  | assign _ _ value | eval value | ret _ (some value) => value.callees
  | ret _ none => []
  | cond _ test body | loop _ test body => test.callees ++ calleesAll body
  | block _ body => calleesAll body

def calleesAll : List Stmt → List String
  | [] => []
  | s :: ss => callees s ++ calleesAll ss

end

end Stmt

namespace Program

/-- The names of the functions that a program calls. -/
def callees (p : Program) : List String :=
  p.functions.flatMap fun (_, f) => Stmt.calleesAll f.body

/-- No function that is called leaves a value that nothing uses. -/
def Quiet (p : Program) : Prop :=
  ∀ x ∈ p.functions, x.2.name ∈ p.callees → x.2.discards x.1 = false

instance (p : Program) : Decidable p.Quiet :=
  inferInstanceAs (Decidable (∀ x ∈ p.functions, _ → _))

end Program

end Labyrinth
