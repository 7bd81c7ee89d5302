import Labyrinth.Machine.Linked
import Labyrinth.Machine.Stack
import Labyrinth.World

/-!
# One step of the machine

`Machine.step` carries out one instruction: it goes on in another state, halts or fails.
-/

namespace Labyrinth

/-- Linked code and the limits of its run. -/
structure Machine where
  ops : Array Op
  maxSteps : Nat
  maxStack : Nat

structure State extends World where
  /-- The place of the next instruction. -/
  ip : Nat
  stack : Stack Value
  /-- The places at which the open calls go on. -/
  frames : Stack Nat
  /-- How many instructions have been taken. -/
  steps : Nat

/-- What an instruction leads to. -/
inductive Next where
  | state (s : State)
  | halt (result : Option Value) (s : State)

namespace State

/-- Takes the top of the stack for the instruction at `ip`. -/
def pop (s : State) (ip : Nat) : Except Fault (Value × State) :=
  match s.stack.pop? with
  | some (v, stack) => .ok (v, { s with stack })
  | none => .error (.stackUnderflow ip)

/-- Takes an integer from the stack. -/
def popCoordinate (s : State) (ip : Nat) : Except Fault (Int64 × State) := do
  match ← s.pop ip with
  | (.int n, s) => return (n, s)
  | (.float x, _) => throw (.type (.teleport x))

end State

namespace Machine

/-- Puts a value onto the stack, if there is room. -/
def push (m : Machine) (s : State) (v : Value) : Except Fault State :=
  if s.stack.size < m.maxStack then .ok { s with stack := s.stack.push v }
  else .error (.stackOverflow m.maxStack)

/-- Carries out a built-in that the instruction at `ip` calls. -/
def act (m : Machine) (ip : Nat) (s : State) : Action → Except Fault State
  | .moveForward => do
    if (← s.cellAhead) = .wall then m.push s (.ofBool false)
    else m.push { s with toWorld := s.forward } (.ofBool true)
  | .turnLeft => .ok { s with toWorld := s.turn Heading.turnedLeft }
  | .turnRight => .ok { s with toWorld := s.turn Heading.turnedRight }
  | .isWall => do m.push s (.ofBool ((← s.cellAhead) = .wall))
  | .completed => m.push s (.ofBool s.atGoal)
  | .teleport => do
    let (x, s) ← s.popCoordinate ip
    let (y, s) ← s.popCoordinate ip
    if s.maze.contains x.toInt y.toInt then return { s with toWorld := s.moveTo x y }
    else throw (.outOfBounds x y)
  | .print => do
    let (v, s) ← s.pop ip
    return { s with toWorld := s.print v }

/-- Goes on at the place of a label. -/
def jump (s : State) (target : Option Nat) (label : String) : Except Fault State :=
  match target with
  | some ip => .ok { s with ip }
  | none => .error (.unresolvedLabel label)

/-- Goes back to the last open call, or halts with a result if there is none. -/
def back (s : State) (result : Option Value) : Next :=
  match s.frames.pop? with
  | some (ip, frames) => .state { s with ip, frames }
  | none => .halt result s

/-- Carries out the instruction at `ip`, behind which the state stands already. -/
def step (m : Machine) (ip : Nat) (s : State) : Op → Except Fault Next
  | .push v => Next.state <$> m.push s v
  | .load name =>
    match s.store.get? name with
    | some v => Next.state <$> m.push s v
    | none => .error (.undefinedVariable name)
  | .store name => do
    let (v, s) ← s.pop ip
    return .state { s with toWorld := s.assign name v }
  | .binary op => do
    let (b, s) ← s.pop ip
    let (a, s) ← s.pop ip
    match op.eval? a b with
    | some v => Next.state <$> m.push s v
    | none => throw (.divisionByZero ip)
  | .neg => do
    let (v, s) ← s.pop ip
    Next.state <$> m.push s v.neg
  | .not => do
    let (v, s) ← s.pop ip
    Next.state <$> m.push s v.not
  | .toFloat => do
    let (v, s) ← s.pop ip
    Next.state <$> m.push s (.float v.toFloat)
  | .skip => .ok (.state s)
  | .jump target label => Next.state <$> jump s target label
  | .jumpIfFalse target label => do
    let (v, s) ← s.pop ip
    if v.truthy then return .state s else Next.state <$> jump s target label
  | .call target name =>
    match target with
    | .action a => Next.state <$> m.act ip s a
    | .address entry =>
      if s.frames.size < m.maxStack then
        .ok (.state { s with frames := s.frames.push s.ip, ip := entry })
      else .error (.stackOverflow m.maxStack)
    | .unresolved => .error (.unresolvedCall name)
  | .ret => .ok (back s s.stack.top?)
  | .retVoid => .ok (back s none)

end Machine

end Labyrinth
