import Labyrinth.CommandLine.Execute

/-!
# The command

Carries out the command of the arguments on the files of the system.
-/

namespace Labyrinth

/-- The reason for which an operation of the system failed. Some operations give the number of the
error with a minus sign. -/
def FileError.ofSystem (e : IO.Error) : FileError :=
  let coded (code : UInt32) (details : String) : FileError :=
    match code.toInt32.toInt.natAbs with
    | 2 => .notFound
    | 16 => .busy
    | 17 => .alreadyExists
    | 20 => .notDirectory
    | 21 => .isDirectory
    | 36 => .nameTooLong
    | n => .other (details ++ " (os error " ++ toString n ++ ")")
  match e with
  | .otherError code details | .resourceBusy code details | .resourceVanished code details
  | .unsupportedOperation code details | .hardwareFault code details
  | .unsatisfiedConstraints code details | .illegalOperation code details
  | .protocolError code details | .timeExpired code details | .interrupted _ code details
  | .noFileOrDirectory _ code details | .invalidArgument _ code details
  | .permissionDenied _ code details | .resourceExhausted _ code details
  | .inappropriateType _ code details | .noSuchThing _ code details
  | .alreadyExists _ code details => coded code details
  | .unexpectedEof => .other "unexpected end of file"
  | .userError message => .other message

/-- An operation of the system, its failure as a value. -/
def attempt {α : Type} (action : IO α) : IO (Except FileError α) := do
  match ← action.toBaseIO with
  | .ok a => return .ok a
  | .error e => return .error (.ofSystem e)

instance : FileAccess IO where
  exists? p := do return (← attempt (IO.FS.Handle.mk p.text .read)).isOk
  read p := attempt (IO.FS.readBinFile p.text)
  createDirs p := if p.text = "" then return .ok () else attempt (IO.FS.createDirAll p.text)
  write p text := attempt (IO.FS.writeFile p.text text)
  rename old new := attempt (IO.FS.rename old.text new.text)

end Labyrinth

open Labyrinth in
def main (args : List String) : IO UInt32 := do
  let directory := (← IO.getEnv CommandLine.directoryVariable).map Labyrinth.Path.mk
  let r ← CommandLine.respond CommandLine.Failure.complaint args directory
  IO.print r.stdout
  IO.eprint r.stderr
  return r.status.toUInt32
