import Labyrinth.Text.Pieces

/-!
# Paths

A path is kept as it is written. Its parts are what stands between the slashes; a single dot stays
where it is and is no part.
-/

namespace Labyrinth

/-- A step along a path. -/
inductive PathPart where
  | up
  | name (s : String)
deriving DecidableEq, Repr

def PathPart.text : PathPart → String
  | up => ".."
  | name s => s

structure Path where
  text : String
deriving DecidableEq, Repr

namespace Path

def isRooted (p : Path) : Bool :=
  p.text.toList.head? = some '/'

/-- What stands between the slashes. -/
def segments (p : Path) : List (List Char) :=
  Text.pieces (· = '/') p.text.toList

def parts (p : Path) : List PathPart :=
  p.segments.filterMap fun s =>
    if s = [] ∨ s = ['.'] then none
    else if s = ['.', '.'] then some .up
    else some (.name (String.ofList s))

/-- Whether only a directory can be meant: the path ends in a slash or in a dot of its own. -/
def endsInDirectory (p : Path) : Bool :=
  match p.segments.getLast? with
  | some s => s = [] || s = ['.']
  | none => false

/-- Whether the path ends in a dot of its own, with or without slashes behind it. -/
def endsInDot (p : Path) : Bool :=
  (p.segments.filter (· ≠ [])).getLast? = some ['.']

/-- The path of parts. -/
def ofParts (rooted : Bool) (parts : List PathPart) : Path :=
  ⟨(if rooted then "/" else "") ++ "/".intercalate (parts.map PathPart.text)⟩

/-- The path without its last part, if it has one. -/
def parent? (p : Path) : Option Path :=
  if p.parts = [] then none else some (ofParts p.isRooted p.parts.dropLast)

/-- The last part, if it is a name. -/
def fileName? (p : Path) : Option String :=
  match p.parts.getLast? with
  | some (.name s) => some s
  | _ => none

/-- The path with another name in the place of its last part. A path that ends in no name gets one
more part. -/
def withFileName (p : Path) (name : String) : Path :=
  let before := if p.fileName?.isSome then p.parts.dropLast else p.parts
  ofParts p.isRooted (before ++ [.name name])

/-- The path of a name inside a directory. A rooted path stays as it is. -/
def join (directory p : Path) : Path :=
  if p.isRooted then p
  else if directory.text = "" ∨ directory.text.toList.getLast? = some '/' then
    ⟨directory.text ++ p.text⟩
  else ⟨directory.text ++ "/" ++ p.text⟩

end Path

end Labyrinth
