import Labyrinth.Machine.Fault
import Labyrinth.Machine.Store
import Labyrinth.World.Maze

/-!
# What a run works on

A `World` holds the variables, the maze with the agent in it, and what was seen and printed so far.
-/

namespace Labyrinth

structure World where
  store : Store
  maze : Maze
  agent : Agent
  /-- Where the agent started, and after each move where it was. -/
  trace : Array Agent
  output : String

namespace World

/-- The content of the cell that the agent stands on. -/
def cell? (w : World) : Option Cell :=
  w.maze.get? w.agent.x.toInt w.agent.y.toInt

/-- The content of the cell ahead of the agent, which has to be in the grid. -/
def cellAhead (w : World) : Except Fault Cell :=
  let (x, y) := w.agent.ahead
  match w.maze.get? x.toInt y.toInt with
  | some c => .ok c
  | none => .error (.outOfBounds x y)

def atGoal (w : World) : Bool :=
  w.cell? = some .goal

/-- The agent on another cell, with an entry in the trace. -/
def moveTo (w : World) (x y : Int64) : World :=
  let agent := w.agent.moveTo x y
  { w with agent, trace := w.trace.push agent }

/-- A step forward, after which the cell that was left is free. -/
def forward (w : World) : World :=
  let (x, y) := w.agent.ahead
  { w with maze := w.maze.set w.agent.x.toInt w.agent.y.toInt .free }.moveTo x y

def turn (w : World) (how : Heading → Heading) : World :=
  { w with agent := w.agent.turn how }

/-- A line of output. -/
def print (w : World) (v : Value) : World :=
  { w with output := w.output ++ v.text ++ "\n" }

def assign (w : World) (name : String) (v : Value) : World :=
  { w with store := w.store.set name v }

end World

end Labyrinth
