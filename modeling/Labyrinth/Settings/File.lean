import Labyrinth.Settings.Document
import Labyrinth.Files.Access

/-!
# Settings in files

Settings are written beside the file first and then moved over it, so the file holds the old
settings or the new ones at every moment.
-/

namespace Labyrinth

/-- Why a JSON document in a file cannot be read or written. -/
inductive DocumentError where
  | file (e : FileError)
  | json (fault : Json.Fault)
deriving DecidableEq, Repr

def DocumentError.message : DocumentError → String
  | file e => "I/O error: " ++ e.message
  | json fault => "JSON error: " ++ fault.message

inductive SettingsError where
  | document (e : DocumentError)
  | invalid (problem : Settings.Problem)
deriving DecidableEq, Repr

def SettingsError.message : SettingsError → String
  | document e => "could not read settings: " ++ e.message
  | invalid problem => "invalid settings: " ++ problem.message

namespace Settings

/-- Settings that are sensible. -/
def validate (s : Settings) : Except SettingsError Unit :=
  match s.problem? with
  | some problem => .error (.invalid problem)
  | none => .ok ()

/-- The settings that a text holds, which have to be sensible. -/
def ofFileText (text : String) : Except SettingsError Settings := do
  let s ← (Settings.ofText text).mapError fun fault => .document (.json fault)
  s.validate
  return s

/-- The path at which the settings for a file are written first. -/
def temporary (p : Path) : Path :=
  p.withFileName (p.fileName?.getD "" ++ ".tmp")

variable {m : Type → Type} [Monad m] [FileAccess m]

/-- The settings of a file, or the defaults if there is none. -/
def load (p : Path) : m (Except SettingsError Settings) := do
  if ← FileAccess.exists? p then
    match ← FileAccess.readText p with
    | .error e => return .error (.document (.file e))
    | .ok text => return ofFileText text
  else return .ok {}

/-- Makes the directory of a file, as far as it is missing. -/
def makeParent (p : Path) : m (Except FileError Unit) :=
  match p.parent? with
  | some directory => FileAccess.createDirs directory
  | none => pure (.ok ())

/-- Writes settings to a file. -/
def save (p : Path) (s : Settings) : m (Except FileError Unit) := do
  match ← makeParent p with
  | .error e => return .error e
  | .ok () =>
    match ← FileAccess.write (temporary p) s.toJson.pretty with
    | .error e => return .error e
    | .ok () => FileAccess.rename (temporary p) p

end Settings

end Labyrinth
