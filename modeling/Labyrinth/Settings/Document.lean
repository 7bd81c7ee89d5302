import Labyrinth.Settings
import Labyrinth.World.Maze
import Labyrinth.Json.Reader

/-!
# Settings and mazes as JSON documents

Settings are an object whose members may be left out, or an array of their fields in order. A maze
is an array of rows of numbers.
-/

namespace Labyrinth

namespace StartPose

def toJson (p : StartPose) : Json :=
  .obj [("x", .int p.x.toInt), ("y", .int p.y.toInt), ("dir_x", .int p.dirX.toInt),
    ("dir_y", .int p.dirY.toInt)]

open Json.Reader

/-- The fields of a start that have been read. -/
structure Draft where
  x : Option Int := none
  y : Option Int := none
  dirX : Option Int := none
  dirY : Option Int := none

/-- All four fields have to be there. -/
def Draft.complete (d : Draft) : Except Json.Fault StartPose :=
  match d.x, d.y, d.dirX, d.dirY with
  | some x, some y, some dirX, some dirY =>
    .ok ⟨.ofInt x, .ofInt y, .ofInt dirX, .ofInt dirY⟩
  | _, _, _, _ => .error .unfit

/-- A coordinate or a component of a direction. -/
def number : Json.Reader Int :=
  integer Int64.minValue.toInt Int64.maxValue.toInt

def member (d : Draft) (key : String) : Json.Reader Draft := do
  match key with
  | "x" => return { d with x := ← once d.x number }
  | "y" => return { d with y := ← once d.y number }
  | "dir_x" => return { d with dirX := ← once d.dirX number }
  | "dir_y" => return { d with dirY := ← once d.dirY number }
  | _ =>
    colon
    skipValue ((← get).length + 1)
    return d

/-- An element of the array form, which has to be there. -/
def element (first : Bool) : Json.Reader Int := do
  match ← element? number first with
  | some n => return n
  | none => throw .unfit

def read : Json.Reader StartPose := do
  match ← next? with
  | some '[' =>
    skip
    let x ← element true
    let y ← element false
    let dirX ← element false
    let dirY ← element false
    close ']'
    return ⟨.ofInt x, .ofInt y, .ofInt dirX, .ofInt dirY⟩
  | some '{' =>
    skip
    let d ← members string member {}
    let p ← d.complete
    close '}'
    return p
  | _ => refuse

end StartPose

namespace Settings

def toJson (s : Settings) : Json :=
  .obj [("version", .int s.version.toNat), ("max_steps", .int s.maxSteps.toNat),
    ("max_stack", .int s.maxStack.toNat), ("start", (s.start.map StartPose.toJson).getD .null)]

open Json.Reader

/-- The fields of settings that have been read. -/
structure Draft where
  version : Option Int := none
  maxSteps : Option Int := none
  maxStack : Option Int := none
  start : Option (Option StartPose) := none

/-- Fields that are not there have their defaults. -/
def Draft.complete (d : Draft) : Settings :=
  let s : Settings := {}
  { version := (d.version.map fun n => n.toNat.toUInt32).getD s.version
    maxSteps := (d.maxSteps.map fun n => n.toNat.toUInt64).getD s.maxSteps
    maxStack := (d.maxStack.map fun n => n.toNat.toUInt64).getD s.maxStack
    start := d.start.getD s.start }

/-- A natural number below `2 ^ 32`. -/
def word32 : Json.Reader Int :=
  integer 0 (UInt32.size - 1)

/-- A natural number below `2 ^ 64`. -/
def word64 : Json.Reader Int :=
  integer 0 (UInt64.size - 1)

def member (d : Draft) (key : String) : Json.Reader Draft := do
  match key with
  | "version" => return { d with version := ← once d.version word32 }
  | "max_steps" => return { d with maxSteps := ← once d.maxSteps word64 }
  | "max_stack" => return { d with maxStack := ← once d.maxStack word64 }
  | "start" => return { d with start := ← once d.start (optional StartPose.read) }
  | _ =>
    colon
    skipValue ((← get).length + 1)
    return d

/-- The array form, in which fields at the end may be left out. -/
def fields : Json.Reader Draft := do
  let some version ← element? word32 true | return {}
  let some maxSteps ← element? word64 false | return { version }
  let some maxStack ← element? word64 false | return { version, maxSteps }
  let start ← element? (optional StartPose.read) false
  return { version, maxSteps, maxStack, start }

def read : Json.Reader Settings := do
  match ← next? with
  | some '[' =>
    skip
    let d ← fields
    close ']'
    return d.complete
  | some '{' =>
    skip
    let d ← members string member {}
    close '}'
    return d.complete
  | _ => refuse

/-- Reads settings from a JSON text. -/
def ofText (text : String) : Except Json.Fault Settings :=
  document read text

end Settings

/-- Why a text holds no maze: it is not rows of numbers, or they are no maze. -/
inductive MazeTextError where
  | json (fault : Json.Fault)
  | maze (e : MazeError)
deriving DecidableEq, Repr

namespace Maze

open Json.Reader

/-- An array of a kind of element. -/
def list {α : Type} (value : Json.Reader α) : Json.Reader (List α) := do
  match ← next? with
  | some '[' => skip; elements value
  | _ => refuse

/-- Rows of numbers of eight bits. -/
def rowsReader : Json.Reader (List (List Nat)) :=
  list (list (Int.toNat <$> integer 0 255))

/-- Reads a maze from a JSON text. What follows the rows is looked at after the rows. -/
def ofText (text : String) : Except MazeTextError Maze := do
  let (rows, rest) ← (rowsReader.run text.toList).mapError .json
  let m ← (ofRows rows).mapError .maze
  (finish rest).mapError .json
  return m

end Maze

end Labyrinth
