import Labyrinth.Machine.Step

/-!
# Runs

A run starts at `main` and goes on until `main` returns, the code ends or an instruction fails. Every
instruction counts as a step, and there may be no more steps than the settings allow.
-/

namespace Labyrinth

/-- What a finished run leaves behind. -/
structure Outcome where
  trace : List Agent
  steps : Nat
  output : String
  /-- What `main` returned. -/
  result : Option Value
  /-- Whether the agent stands on a goal. -/
  completed : Bool
  /-- The variables at the end. -/
  store : Store
  maze : Maze

namespace Machine

/-- The agent at the start of a run. -/
def startAgent (maze : Maze) (settings : Settings) : Except Fault Agent := do
  let agent : Agent ← match settings.start with
    | some p =>
      match Heading.ofStep? p.dirX p.dirY with
      | some heading => pure ⟨p.x, p.y, heading⟩
      | none => throw (.type (.startHeading p.dirX p.dirY))
    | none =>
      match maze.find? .start with
      | some (x, y) => pure ⟨.ofNat x, .ofNat y, .down⟩
      | none => throw .noStartCell
  if maze.contains agent.x.toInt agent.y.toInt then return agent
  else throw (.outOfBounds agent.x agent.y)

/-- The machine for a code and its state before the first step. -/
def load (code : Code) (maze : Maze) (settings : Settings) : Except Fault (Machine × State) :=
  match code.entry? "main" with
  | none => .error .missingMain
  | some ip => do
    let agent ← startAgent maze settings
    let m : Machine :=
      { ops := code.link, maxSteps := settings.maxSteps.toNat, maxStack := settings.maxStack.toNat }
    return (m, { ip, maze, agent, stack := .empty, frames := .empty, store := .empty,
                 trace := #[agent], output := "", steps := 0 })

/-- Carries out the instruction at which the state stands. -/
def take (m : Machine) (s : State) (op : Op) : Except Fault Next :=
  m.step s.ip { s with ip := s.ip + 1, steps := s.steps + 1 } op

/-- Goes on for at most `budget` steps, up to the result. -/
def runFrom (m : Machine) (budget : Nat) (s : State) : Except Fault (Option Value × State) :=
  match m.ops[s.ip]?, budget with
  | none, _ => .ok (none, s)
  | some _, 0 => .error (.stepsExceeded m.maxSteps)
  | some op, budget + 1 =>
    match m.take s op with
    | .error f => .error f
    | .ok (.halt v s) => .ok (v, s)
    | .ok (.state s) => runFrom m budget s

end Machine

/-- What a state and a result leave behind. -/
def State.outcome (s : State) (result : Option Value) : Outcome where
  trace := s.trace.toList
  steps := s.steps
  output := s.output
  result
  completed := s.atGoal
  store := s.store
  maze := s.maze

/-- Runs a code in a maze. -/
def Code.run (code : Code) (maze : Maze) (settings : Settings) : Except Fault Outcome := do
  let (m, s) ← Machine.load code maze settings
  let (result, s) ← m.runFrom m.maxSteps s
  return s.outcome result

namespace Outcome

/-- How often the agent moved. -/
def moves (o : Outcome) : Nat :=
  o.trace.length - 1

def toJson (o : Outcome) : Json :=
  .obj [("trace", .arr (o.trace.map Agent.toJson)), ("steps", .int o.steps),
    ("output", .str o.output), ("return_value", (o.result.map Value.toJson).getD .null),
    ("completed", .bool o.completed),
    ("variables", .obj (o.store.entries.map fun (name, v) => (name, v.toJson))),
    ("maze", o.maze.toJson)]

end Outcome

end Labyrinth
