import Labyrinth.World.Agent

/-!
# Settings of a run

The limits of a run and where the agent starts. Settings that a file may hold need not be sensible;
`Settings.problem?` finds the first thing that is not.
-/

namespace Labyrinth

/-- A start of the agent's own choice. Its direction need not be a heading. -/
structure StartPose where
  x : Int64
  y : Int64
  dirX : Int64
  dirY : Int64
deriving DecidableEq, Repr

/-- The message about a direction that is no heading. -/
def notHeadingMessage (dirX dirY : Int64) : String :=
  "start heading (" ++ toString dirX.toInt ++ ", " ++ toString dirY.toInt ++
    ") is not a unit axis vector"

structure Settings where
  version : UInt32 := 1
  /-- How many instructions a run may take. -/
  maxSteps : UInt64 := 1000000
  /-- How many values, and how many calls, may wait at once. -/
  maxStack : UInt64 := 4096
  /-- Without a start, the agent stands on the start cell of the maze and faces downward. -/
  start : Option StartPose := none
deriving DecidableEq, Repr

namespace Settings

inductive Problem where
  | noSteps
  | noStack
  | notHeading (dirX dirY : Int64)
deriving DecidableEq, Repr

def Problem.message : Problem → String
  | noSteps => "max_steps must be positive"
  | noStack => "max_stack must be positive"
  | notHeading dirX dirY => notHeadingMessage dirX dirY

/-- The first thing in settings that is not sensible. -/
def problem? (s : Settings) : Option Problem :=
  if s.maxSteps = 0 then some .noSteps
  else if s.maxStack = 0 then some .noStack
  else s.start.bind fun p =>
    if (Heading.ofStep? p.dirX p.dirY).isSome then none else some (.notHeading p.dirX p.dirY)

end Settings

end Labyrinth
