/-!
# Types of the language

An integer may stand where a float is expected; `Ty.accepts` is this rule.
-/

namespace Labyrinth

inductive Ty where
  | int
  | float
  | bool
  | void
deriving DecidableEq, Repr

namespace Ty

def keyword : Ty → String
  | int => "int"
  | float => "float"
  | bool => "bool"
  | void => "void"

def ofKeyword? (s : String) : Option Ty :=
  [int, float, bool, void].find? (·.keyword = s)

def isNumeric : Ty → Bool
  | int | float => true
  | bool | void => false

/-- Whether a value of type `value` may be stored in a slot of type `slot`. -/
def accepts (slot value : Ty) : Bool :=
  slot = value || slot = float && value = int

end Ty

end Labyrinth
