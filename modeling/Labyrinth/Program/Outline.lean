import Labyrinth.Program
import Labyrinth.Double.Layout

/-!
# The outline of a program

Each declaration as one line in which every node is a parenthesis: its kind, its place, what it
names, and its parts.
-/

namespace Labyrinth

def Location.outline (loc : Location) : String :=
  toString loc.line ++ ":" ++ toString loc.column

namespace Expr

mutual

def outline : Expr → String
  | int loc value => "(int " ++ loc.outline ++ " " ++ toString value.toInt ++ ")"
  | float loc raw value =>
    "(float " ++ loc.outline ++ " " ++ raw ++ " " ++ Layout.listing.render value ++ ")"
  | bool loc value => "(bool " ++ loc.outline ++ (if value then " true)" else " false)")
  | var loc name => "(id " ++ loc.outline ++ " " ++ name ++ ")"
  | binary loc op left right =>
    "(bin " ++ loc.outline ++ " " ++ op.symbol ++ " " ++ outline left ++ " " ++ outline right ++ ")"
  | unary loc op operand =>
    "(un " ++ loc.outline ++ " " ++ op.symbol ++ " " ++ outline operand ++ ")"
  | call loc name args => "(call " ++ loc.outline ++ " " ++ name ++ outlineAll args ++ ")"

/-- Each expression with a blank in front. -/
def outlineAll : List Expr → String
  | [] => ""
  | e :: es => " " ++ outline e ++ outlineAll es

end

end Expr

namespace Stmt

mutual

def outline : Stmt → String
  | declare loc ty name init =>
    "(var " ++ loc.outline ++ " " ++ ty.keyword ++ " " ++ name ++ " " ++ init.outline ++ ")"
  | assign loc name value => "(set " ++ loc.outline ++ " " ++ name ++ " " ++ value.outline ++ ")"
  | cond loc test body =>
    "(if " ++ loc.outline ++ " " ++ test.outline ++ outlineAll body ++ ")"
  | loop loc test body =>
    "(while " ++ loc.outline ++ " " ++ test.outline ++ outlineAll body ++ ")"
  | ret loc none => "(return " ++ loc.outline ++ ")"
  | ret loc (some value) => "(return " ++ loc.outline ++ " " ++ value.outline ++ ")"
  | eval value => "(do " ++ value.loc.outline ++ " " ++ value.outline ++ ")"
  | block loc body => "(block " ++ loc.outline ++ outlineAll body ++ ")"

/-- Each statement with a blank in front. -/
def outlineAll : List Stmt → String
  | [] => ""
  | s :: ss => " " ++ outline s ++ outlineAll ss

end

end Stmt

def Param.outline (p : Param) : String :=
  "(" ++ p.loc.outline ++ " " ++ p.ty.keyword ++ " " ++ p.name ++ ")"

def Function.outline (f : Function) : String :=
  "(func " ++ f.loc.outline ++ " " ++ f.ret.keyword ++ " " ++ f.name ++ " (" ++
    " ".intercalate (f.params.map Param.outline) ++ ")" ++ Stmt.outlineAll f.body ++ ")"

def Decl.outline : Decl → String
  | .function f => f.outline
  | .stmt s => s.outline

end Labyrinth
