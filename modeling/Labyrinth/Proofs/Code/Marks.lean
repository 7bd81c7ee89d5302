import Labyrinth.Proofs.Program.Parts

/-!
# What instructions take

Beside each instruction of a program's code stands a `Mark`: the types that the analyser gave to the
values which the instruction takes from the stack, and whether it stands behind a value that is not
used. `Program.marks` is as long as the code and needs no labels.
-/

namespace Labyrinth

/-- What is on the stack for a value of a type. -/
def Ty.values : Ty → List Ty
  | .void => []
  | ty => [ty]

/-- Whether a value of type `ty` is turned into a float for a slot. -/
def Ty.widens (slot ty : Ty) : Bool := slot = .float && ty = .int

/-- The type of the slot that an argument of type `ty` goes to. -/
def Slot.into : Slot → Ty → Ty
  | .exact slot, _ => slot
  | .any, ty => ty

structure Mark where
  /-- The types of the values that are taken, the top of the stack first. -/
  takes : List Ty := []
  /-- Whether a value is left that nothing uses. -/
  discards : Bool := false

/-- The mark of an instruction that takes values of these types. -/
def Mark.taking (tys : List Ty) : Mark := { takes := tys }

/-- The marks of a widening instruction, if there is one. -/
def Ty.wideningMarks (slot ty : Ty) : List Mark :=
  if slot.widens ty then [.taking [.int]] else []

namespace Expr

/-- The types of the slots that arguments go to. -/
def argTypes (Γ : Context) (slots : List Slot) (args : List Expr) : List Ty :=
  List.zipWith (fun slot arg => slot.into (arg.ty Γ)) slots args

/-- What the arguments of a function have to be. -/
def slots (Γ : Context) (name : String) : List Slot :=
  ((Γ.function? name).map (·.params)).getD []

mutual

def marks (Γ : Context) : Expr → List Mark
  | int _ _ | float _ _ _ | bool _ _ | var _ _ => [.taking []]
  | binary _ _ left right =>
    marks Γ left ++ marks Γ right ++ [.taking [right.ty Γ, left.ty Γ]]
  | unary _ _ operand => marks Γ operand ++ [.taking [operand.ty Γ]]
  | call _ name args =>
    argMarks Γ (slots Γ name) args ++ [.taking (argTypes Γ (slots Γ name) args).reverse]

def argMarks (Γ : Context) : List Slot → List Expr → List Mark
  | slot :: slots, arg :: args =>
    marks Γ arg ++ (slot.into (arg.ty Γ)).wideningMarks (arg.ty Γ) ++ argMarks Γ slots args
  | _, _ => []

end

def marksInto (Γ : Context) (slot : Ty) (e : Expr) : List Mark :=
  e.marks Γ ++ slot.wideningMarks (e.ty Γ)

end Expr

namespace Stmt

mutual

def marks (Γ : Context) : Stmt → List Mark
  | declare _ ty _ init => init.marksInto Γ ty ++ [.taking [ty]]
  | assign _ name value =>
    let slot := (Γ.lookup? name).getD .void
    value.marksInto Γ slot ++ [.taking [slot]]
  | cond _ test body => test.marks Γ ++ [.taking [.bool]] ++ marksAll Γ.push body ++ [.taking []]
  | loop _ test body =>
    [.taking []] ++ test.marks Γ ++ [.taking [.bool]] ++ marksAll Γ.push body ++
      [.taking [], .taking []]
  | ret _ none => [.taking []]
  | ret _ (some value) =>
    let slot := Γ.ret.getD .void
    value.marksInto Γ slot ++ [.taking slot.values]
  | eval value => value.marks Γ ++ [{ discards := value.ty Γ ≠ .void }]
  | block _ body => marksAll Γ.push body

def marksAll (Γ : Context) : List Stmt → List Mark
  | [] => []
  | s :: ss => marks Γ s ++ marksAll (s.after Γ) ss

end

end Stmt

def Function.marks (Γ : Context) (f : Function) : List Mark :=
  [.taking []] ++ f.params.reverse.map (fun x => .taking [x.ty]) ++
    Stmt.marksAll (Γ.inside f) f.body ++ [.taking []]

/-- The marks of the instructions of a program's code. -/
def Program.marks (p : Program) : List Mark :=
  p.functions.flatMap fun (Γ, f) => f.marks Γ

end Labyrinth
