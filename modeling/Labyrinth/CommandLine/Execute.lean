import Labyrinth.CommandLine.Arguments
import Labyrinth.Settings.File
import Labyrinth.Source

/-!
# Carrying out commands

`execute` carries out a command on the files that it may reach. What it gives is shown as text, or
as JSON with the keys of every object in order.
-/

namespace Labyrinth.CommandLine

/-- Why a command fails. -/
inductive Failure where
  | file (e : FileError)
  | maze (e : MazeTextError)
  | settings (e : SettingsError)
  | program (e : Labyrinth.Failure)

/-- What is said about a failure. -/
structure Complaint where
  code : String
  /-- How the text starts. -/
  heading : String
  message : String
  /-- The stage of a program's failure. -/
  stage : Option Stage := none
deriving DecidableEq, Repr

namespace Failure

def complaint : Failure → Complaint
  | file e => { code := "IoError", heading := "I/O error: ", message := e.message }
  | maze e =>
    { code := "InvalidJson", heading := "Invalid JSON: "
      message := match e with
        | .json fault => fault.message
        | .maze e => e.message }
  | settings e =>
    { code := "SettingsError", heading := "Settings error: ", message := e.message }
  | program e =>
    { code := "Pipeline", heading := "", message := e.report.display, stage := e.report.stage }

end Failure

namespace Complaint

def display (c : Complaint) : String :=
  c.heading ++ c.message

def toJson (c : Complaint) : Json :=
  .obj [("code", .str c.code),
    ("detail", .obj ((c.stage.map fun s => ("stage", Json.str s.name)).toList ++
      [("message", .str c.message)]))]

end Complaint

/-- What a command gives, in both forms. -/
structure Output where
  text : String
  json : Json

/-- What the command leaves behind when it ends. -/
structure Response where
  status : UInt8
  stdout : String
  stderr : String
deriving DecidableEq, Repr

namespace Response

/-- The text of an output, which ends in a line break unless it is empty. -/
def ofOutput (json : Bool) (o : Output) : Response :=
  let text :=
    if json then o.json.sortKeys.pretty ++ "\n"
    else if o.text = "" ∨ o.text.toList.getLast? = some '\n' then o.text
    else o.text ++ "\n"
  ⟨0, text, ""⟩

def ofComplaint (json : Bool) (c : Complaint) : Response :=
  ⟨1, "", (if json then c.toJson.pretty else c.display) ++ "\n"⟩

def usage : String :=
  "usage: micromouse-cli [--json] [--settings FILE] [--max-steps N] [-v] COMMAND\n" ++
    "commands: tokens FILE, check FILE, compile FILE, run FILE --maze FILE,\n" ++
    "exec FILE --maze FILE, builtins, config [--save]\n"

def ofRefusal : Refusal → Response
  | .usage => ⟨2, "", usage⟩
  | .help => ⟨0, usage, ""⟩
  | .version => ⟨0, "micromouse-cli 0.1.0\n", ""⟩

end Response

/-! ### Outputs -/

/-- A text with blanks behind it up to a width. -/
def padded (width : Nat) (s : String) : String :=
  s ++ String.ofList (List.replicate (width - s.length) ' ')

def tokensOutput (ls : List Lexeme) : Output where
  text := String.join (ls.map fun l =>
    toString l.loc.line ++ ":" ++ toString l.loc.column ++ "\t" ++ l.token.kind ++ "\t" ++
      l.token.lexeme ++ "\n")
  json := .arr (ls.map fun l =>
    .obj [("kind", .str l.token.kind), ("lexeme", .str l.token.lexeme), ("line", .int l.loc.line),
      ("column", .int l.loc.column)])

def checkOutput (source : Path) (p : Program) : Output where
  text := source.text ++ ": OK"
  json := .obj [("ok", .bool true), ("declarations", .int p.length)]

def codeOutput (code : Code) : Output where
  text := code.listing
  json := code.toJson

def poseLine (a : Agent) : String :=
  "(" ++ toString a.x.toInt ++ ", " ++ toString a.y.toInt ++ ") facing (" ++
    toString a.heading.dx.toInt ++ ", " ++ toString a.heading.dy.toInt ++ ")\n"

def outcomeOutput (o : Outcome) : Output where
  text := o.output ++ String.join (o.trace.map poseLine) ++ "steps: " ++ toString o.steps ++
    ", moves: " ++ toString o.moves ++ ", completed: " ++
    (if o.completed then "true" else "false") ++
    match o.result with
    | some v => ", returned: " ++ v.text
    | none => ""
  json := o.toJson

def builtinsOutput : Output where
  text := String.join (Builtin.table.map fun b =>
    padded 10 b.category ++ " " ++ padded 30 b.declaration ++ " " ++ b.description ++
      (if b.action.isSome then "" else " [analysis only]") ++ "\n")
  json := .arr (Builtin.table.map fun b =>
    .obj [("name", .str b.name), ("signature", .str b.declaration), ("category", .str b.category),
      ("description", .str b.description), ("available", .bool b.action.isSome)])

/-! ### Commands -/

/-- The file in which settings are looked for, if no other is given. -/
def settingsName : Path := ⟨"micromouse.json"⟩

/-- The variable of the environment with the directory of the settings. -/
def directoryVariable : String := "MICROMOUSE_CONFIG_DIR"

/-- The file of the settings: the one that is given, or the usual one in its directory. -/
def settingsPath (options : Options) (directory : Option Path) : Path :=
  options.settings.getD ((directory.getD ⟨"."⟩).join settingsName)

/-- Settings with another number of steps, which have to be sensible with it. -/
def withMaxSteps (maxSteps : Option UInt64) (s : Settings) : Except SettingsError Settings :=
  match maxSteps with
  | none => .ok s
  | some n => do
    let s := { s with maxSteps := n }
    s.validate
    return s

variable {m : Type → Type} [Monad m] [FileAccess m]

/-- The settings for a command. -/
def effectiveSettings (options : Options) (directory : Option Path) :
    m (Except SettingsError Settings) := do
  return (← Settings.load (settingsPath options directory)).bind (withMaxSteps options.maxSteps)

/-- The settings for a command, or its failure. -/
def loadSettings (options : Options) (directory : Option Path) : ExceptT Failure m Settings :=
  ExceptT.mk do return (← effectiveSettings options directory).mapError .settings

def readFile (p : Path) : ExceptT Failure m String :=
  ExceptT.mk do return (← FileAccess.readText p).mapError .file

def readMaze (p : Path) : ExceptT Failure m Maze := do
  let text ← readFile p
  liftExcept ((Maze.ofText text).mapError .maze)
where
  liftExcept (r : Except Failure Maze) : ExceptT Failure m Maze := ExceptT.mk (pure r)

/-- What a program gives, or its failure. -/
def ofProgram {α : Type} (r : Except Labyrinth.Failure α) : ExceptT Failure m α :=
  ExceptT.mk (pure (r.mapError .program))

def saveSettings (p : Path) (s : Settings) : ExceptT Failure m Unit :=
  ExceptT.mk do
    return (← Settings.save p s).mapError fun e => .settings (.document (.file e))

/-- Shows the settings, and writes them to their file if that is wanted. -/
def config (options : Options) (directory : Option Path) (save : Bool) :
    ExceptT Failure m Output := do
  let s ← loadSettings options directory
  let path := settingsPath options directory
  if save then
    saveSettings path s
    return ⟨s.toJson.pretty ++ "\nsaved to " ++ path.text, s.toJson⟩
  else return ⟨s.toJson.pretty, s.toJson⟩

/-- Carries out a command. The settings are looked for in `directory`, or else in the current
one. -/
def execute (i : Invocation) (directory : Option Path) : ExceptT Failure m Output := do
  match i.command with
  | .tokens source =>
    let text ← readFile source
    return tokensOutput (← ofProgram (Source.lexemes text))
  | .check source =>
    let text ← readFile source
    return checkOutput source (← ofProgram (Source.checked text))
  | .compile source =>
    let text ← readFile source
    return codeOutput (← ofProgram (Source.compile text))
  | .run source maze =>
    let text ← readFile source
    let maze ← readMaze maze
    let settings ← loadSettings i.options directory
    return outcomeOutput (← ofProgram (Source.run text maze settings))
  | .exec listing maze =>
    let text ← readFile listing
    let code ← ofProgram (Code.read text)
    let maze ← readMaze maze
    let settings ← loadSettings i.options directory
    return outcomeOutput (← ofProgram ((code.run maze settings).mapError .fault))
  | .builtins => return builtinsOutput
  | .config save => config i.options directory save

/-- Carries out the command that the arguments ask for. `say` puts a failure into words. -/
def respond (say : Failure → Complaint) (args : List String) (directory : Option Path) :
    m Response := do
  match readArguments args with
  | .error r => return .ofRefusal r
  | .ok i =>
    match ← (execute i directory).run with
    | .ok o => return .ofOutput i.options.json o
    | .error e => return .ofComplaint i.options.json (say e)

end Labyrinth.CommandLine
