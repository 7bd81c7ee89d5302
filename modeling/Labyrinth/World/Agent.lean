import Labyrinth.Json.Basic

/-!
# The agent

An agent stands on a cell and faces one of four ways. Since rows go downward, a left turn goes from
`down` to `right`.
-/

namespace Labyrinth

inductive Heading where
  | up
  | down
  | left
  | right
deriving DecidableEq, Repr

namespace Heading

/-- The columns that a step goes on. -/
def dx : Heading → Int64
  | up | down => 0
  | left => -1
  | right => 1

/-- The rows that a step goes down. -/
def dy : Heading → Int64
  | left | right => 0
  | up => -1
  | down => 1

def all : List Heading :=
  [up, down, left, right]

/-- The heading of a step by one cell along an axis. -/
def ofStep? (dx dy : Int64) : Option Heading :=
  all.find? fun h => h.dx = dx ∧ h.dy = dy

def turnedLeft : Heading → Heading
  | up => left
  | left => down
  | down => right
  | right => up

def turnedRight : Heading → Heading
  | up => right
  | right => down
  | down => left
  | left => up

def toJson (h : Heading) : Json :=
  .obj [("dx", .int h.dx.toInt), ("dy", .int h.dy.toInt)]

end Heading

/-- Where the agent stands and which way it faces. -/
structure Agent where
  x : Int64
  y : Int64
  heading : Heading
deriving DecidableEq, Repr

namespace Agent

/-- The place of the cell ahead. -/
def ahead (a : Agent) : Int64 × Int64 :=
  (a.x + a.heading.dx, a.y + a.heading.dy)

/-- The agent on another cell. -/
def moveTo (a : Agent) (x y : Int64) : Agent :=
  { a with x, y }

def turn (a : Agent) (how : Heading → Heading) : Agent :=
  { a with heading := how a.heading }

def toJson (a : Agent) : Json :=
  .obj [("x", .int a.x.toInt), ("y", .int a.y.toInt), ("dir_x", .int a.heading.dx.toInt),
    ("dir_y", .int a.heading.dy.toInt)]

end Agent

end Labyrinth
