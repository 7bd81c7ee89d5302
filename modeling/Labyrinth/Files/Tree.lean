import Labyrinth.Files.Access

/-!
# A tree of files

A `Tree` maps places, which are lists of names from the root on, to files and directories. An
operation that fails leaves the tree as it was, but for the directories that `createDirs` made
before it failed.
-/

namespace Labyrinth

/-- What stands at a place. -/
inductive Entry where
  | file (content : ByteArray)
  | directory

/-- The names from the root on. -/
abbrev Place := List String

structure Tree where
  /-- The directory at which paths that are not rooted start. -/
  current : Place
  entries : List (Place × Entry)

namespace Tree

def get? (t : Tree) (p : Place) : Option Entry :=
  if p = [] then some .directory else t.entries.lookup p

/-- The entries without the one at a place. -/
def remove (p : Place) (es : List (Place × Entry)) : List (Place × Entry) :=
  es.filter (·.1 ≠ p)

def erase (t : Tree) (p : Place) : Tree :=
  { t with entries := remove p t.entries }

def set (t : Tree) (p : Place) (e : Entry) : Tree :=
  { t with entries := (p, e) :: remove p t.entries }

def isDirectory (t : Tree) (p : Place) : Bool :=
  match t.get? p with
  | some .directory => true
  | _ => false

/-- The longest name of a file, in bytes. -/
def maxName : Nat := 255

/-- Goes along parts of a path. Every place but the last has to be a directory. -/
def walk (t : Tree) (here : Place) : List PathPart → Except FileError Place
  | [] => .ok here
  | part :: parts =>
    match t.get? here with
    | none => .error .notFound
    | some (.file _) => .error .notDirectory
    | some .directory =>
      match part with
      | .up => walk t here.dropLast parts
      | .name s =>
        if maxName < s.utf8ByteSize then .error .nameTooLong else walk t (here ++ [s]) parts

/-- The place of a path, at which nothing need stand. -/
def resolve (t : Tree) (p : Path) : Except FileError Place :=
  if p.text = "" then .error .notFound
  else if p.text.toList.contains '\x00' then .error .nulByte
  else t.walk (if p.isRooted then [] else t.current) p.parts

/-- What stands at the place of a path. -/
def find (t : Tree) (p : Path) : Except FileError (Place × Entry) := do
  let place ← t.resolve p
  match t.get? place with
  | none => throw .notFound
  | some (.file content) =>
    if p.endsInDirectory then throw .notDirectory else return (place, .file content)
  | some .directory => return (place, .directory)

/-- Makes a directory at a path. -/
def makeDir (t : Tree) (p : Path) : Except FileError Tree := do
  let place ← t.resolve p
  match t.get? place with
  | some _ => throw .alreadyExists
  | none => return t.set place .directory

/-- Whether a path leads to a directory. -/
def leadsToDirectory (t : Tree) (p : Path) : Bool :=
  match t.find p with
  | .ok (_, .directory) => true
  | _ => false

/-- Makes a directory at a path unless one is there. -/
def ensureDir (t : Tree) (p : Path) : Except FileError Unit × Tree :=
  match t.makeDir p with
  | .ok t => (.ok (), t)
  | .error e => (if t.leadsToDirectory p then .ok () else .error e, t)

/-- Makes the directories of a path whose parts are given from the last to the first. -/
def ensureDirs (rooted : Bool) (t : Tree) : List PathPart → Except FileError Unit × Tree
  | [] => (.ok (), t)
  | part :: before =>
    let p := Path.ofParts rooted (before.reverse ++ [part])
    match t.ensureDir p with
    | (.error .notFound, _) =>
      match ensureDirs rooted t before with
      | (.ok (), t) => t.ensureDir p
      | failed => failed
    | done => done

def createDirs (t : Tree) (p : Path) : Except FileError Unit × Tree :=
  t.ensureDirs p.isRooted p.parts.reverse

def read (t : Tree) (p : Path) : Except FileError ByteArray := do
  match ← t.find p with
  | (_, .file content) => return content
  | (_, .directory) => throw .isDirectory

def write (t : Tree) (p : Path) (content : ByteArray) : Except FileError Tree := do
  let place ← t.resolve p
  if t.isDirectory place ∨ p.endsInDirectory then throw .isDirectory
  return t.set place (.file content)

/-- Moves a file. The new path has to end in a name and may not lead to a directory; one that ends in
a dot leads to a directory, or to nothing. -/
def rename (t : Tree) (old new : Path) : Except FileError Tree := do
  let source ← t.resolve old
  let target ← t.resolve new
  if new.endsInDot then discard (t.find new)
  if new.endsInDot ∨ new.fileName?.isNone then throw .busy
  match t.get? source with
  | some (.file content) =>
    if new.endsInDirectory then throw .notDirectory
    if t.isDirectory target then throw .isDirectory
    return (t.erase source).set target (.file content)
  | _ => throw .notFound

/-- The files below a place, with their places from there on. -/
def filesBelow (t : Tree) (base : Place) : List (Place × ByteArray) :=
  t.entries.filterMap fun (p, e) =>
    match e with
    | .file content => if base.isPrefixOf p then some (p.drop base.length, content) else none
    | .directory => none

/-- The tree after an operation, and what the operation gave. -/
def after {α : Type} (t : Tree) (r : Except FileError (α × Tree)) : Except FileError α × Tree :=
  match r with
  | .ok (a, t) => (.ok a, t)
  | .error e => (.error e, t)

instance : FileAccess (StateM Tree) where
  exists? p := fun t => ((t.find p).isOk, t)
  read p := fun t => (t.read p, t)
  createDirs p := fun t => t.createDirs p
  write p text := fun t => t.after ((t.write p text.toUTF8).map ((), ·))
  rename old new := fun t => t.after ((t.rename old new).map ((), ·))

end Tree

end Labyrinth
