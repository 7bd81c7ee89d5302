import Labyrinth.Ty

/-!
# Built-in functions

`Builtin.table` is the one list of them. The analyser takes their signatures from it and the machine
their actions; a built-in without an action may be called in a program, but not when it runs.
-/

namespace Labyrinth

/-- What an argument may be: of one type, or any value. -/
inductive Slot where
  | exact (ty : Ty)
  | any
deriving DecidableEq, Repr

namespace Slot

def describe : Slot → String
  | exact ty => ty.keyword
  | any => "any"

/-- Whether an argument of type `ty` fits. -/
def admits : Slot → Ty → Bool
  | exact slot, ty => slot.accepts ty
  | any, ty => ty ≠ .void

end Slot

/-- What a function takes and returns. -/
structure Signature where
  ret : Ty
  params : List Slot
deriving DecidableEq, Repr

/-- What a built-in does when it is called. -/
inductive Action where
  | moveForward
  | turnLeft
  | turnRight
  | isWall
  | completed
  | teleport
  | print
deriving DecidableEq, Repr

def Action.name : Action → String
  | moveForward => "MoveForward"
  | turnLeft => "TurnLeft"
  | turnRight => "TurnRight"
  | isWall => "IsWall"
  | completed => "Completed"
  | teleport => "Teleport"
  | print => "Print"

structure Builtin where
  name : String
  params : List (String × Slot)
  ret : Ty
  action : Option Action
  category : String
  description : String
deriving DecidableEq, Repr

namespace Builtin

def signature (b : Builtin) : Signature :=
  ⟨b.ret, b.params.map (·.2)⟩

/-- The signature as it is written in a source text. -/
def declaration (b : Builtin) : String :=
  b.ret.keyword ++ " " ++ b.name ++ "(" ++
    ", ".intercalate (b.params.map fun (name, slot) => slot.describe ++ " " ++ name) ++ ")"

/-- Whether a built-in moves or turns the agent and takes nothing. -/
def isRestricted (b : Builtin) : Bool :=
  b.category = "navigation" && b.params.isEmpty

def table : List Builtin :=
  [ { name := "move_forward", params := [], ret := .bool, action := some .moveForward
      category := "navigation"
      description := "Step one cell along the heading. Returns false if a wall blocks the way" },
    { name := "turn_left", params := [], ret := .void, action := some .turnLeft
      category := "navigation"
      description := "Rotate the heading 90 degrees counter-clockwise" },
    { name := "turn_right", params := [], ret := .void, action := some .turnRight
      category := "navigation"
      description := "Rotate the heading 90 degrees clockwise" },
    { name := "is_wall", params := [], ret := .bool, action := some .isWall
      category := "sensor"
      description := "True if the cell ahead is a wall" },
    { name := "completed", params := [], ret := .bool, action := some .completed
      category := "sensor"
      description := "True if the agent stands on the goal cell" },
    { name := "next_wall", params := [], ret := .int, action := none
      category := "sensor"
      description := "Distance to the next wall ahead (not available at run time)" },
    { name := "teleport", params := [("x", .exact .int), ("y", .exact .int)], ret := .void
      action := some .teleport
      category := "world"
      description := "Move the agent to a cell without changing its heading" },
    { name := "print", params := [("value", .any)], ret := .void, action := some .print
      category := "io"
      description := "Append a value to the program output" } ]

def find? (name : String) : Option Builtin :=
  table.find? (·.name = name)

end Builtin

end Labyrinth
