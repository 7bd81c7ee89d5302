import Labyrinth.Files.Path
import Labyrinth.Text.Numeral

/-!
# The arguments of the command

A command has options of its own and takes the general options as well, which may also stand in
front of its name. The value of a general option behind the name goes before one in front of it.
-/

namespace Labyrinth.CommandLine

inductive Command where
  | tokens (source : Path)
  | check (source : Path)
  | compile (source : Path)
  | run (source maze : Path)
  | exec (listing maze : Path)
  | builtins
  | config (save : Bool)
deriving DecidableEq, Repr

/-- The options that every command takes. -/
structure Options where
  json : Bool
  settings : Option Path
  maxSteps : Option UInt64
deriving DecidableEq, Repr

structure Invocation where
  command : Command
  options : Options
deriving DecidableEq, Repr

/-- Why no command is carried out. -/
inductive Refusal where
  | usage
  | help
  | version
deriving DecidableEq, Repr

/-- What is understood at one level of the arguments: in front of the name of a command or behind
it. -/
structure Grammar where
  /-- Options that are there or not. -/
  flags : List String
  /-- Options with a path. -/
  paths : List String
  /-- How many words belong to a command; none in front of its name. -/
  words : Option Nat

namespace Grammar

/-- In front of the name of a command. -/
def general : Grammar := ⟨["json", "verbose"], ["settings"], none⟩

/-- Behind the name of a command. -/
def ofCommand? : String → Option Grammar
  | "tokens" | "check" | "compile" => some { general with words := some 1 }
  | "run" | "exec" => some { general with paths := "maze" :: general.paths, words := some 1 }
  | "builtins" => some { general with words := some 0 }
  | "config" => some { general with flags := "save" :: general.flags, words := some 0 }
  | _ => none

end Grammar

/-- What has been read of a level. -/
structure Level where
  flags : List String := []
  paths : List (String × Path) := []
  maxSteps : Option UInt64 := none
  words : List Path := []

namespace Level

/-- Adds an option that is there or not, which may be given once. -/
def addFlag (l : Level) (name : String) : Except Refusal Level :=
  if l.flags.contains name then .error .usage else .ok { l with flags := name :: l.flags }

/-- Adds a path, which may not be empty, for an option that may be given once. -/
def addPath (l : Level) (name value : String) : Except Refusal Level :=
  if value = "" ∨ (l.paths.lookup name).isSome then .error .usage
  else .ok { l with paths := (name, ⟨value⟩) :: l.paths }

def addMaxSteps (l : Level) (value : String) : Except Refusal Level :=
  match l.maxSteps, Text.word64? value.toList with
  | none, some n => .ok { l with maxSteps := some n.toUInt64 }
  | _, _ => .error .usage

/-- Adds a word, if there is room for it. -/
def addWord (l : Level) (g : Grammar) (word : String) : Except Refusal Level :=
  if word = "" ∨ g.words.getD 0 ≤ l.words.length then .error .usage
  else .ok { l with words := l.words ++ [⟨word⟩] }

/-- Adds letters behind one dash. -/
def addLetters (l : Level) (g : Grammar) : List Char → Except Refusal Level
  | [] => .ok l
  | 'v' :: cs => do (← l.addFlag "verbose").addLetters g cs
  | 'h' :: _ => .error .help
  | 'V' :: _ => .error (if g.words.isNone then .version else .usage)
  | _ :: _ => .error .usage

/-- Adds an option that takes a value. -/
def addValue (l : Level) (name value : String) : Except Refusal Level :=
  if name = "max-steps" then l.addMaxSteps value else l.addPath name value

end Level

/-- Whether an argument is an option, and so no value of an option in front of it. -/
def isOption (arg : String) : Bool :=
  match arg.toList with
  | '-' :: _ :: _ => true
  | _ => false

/-- The name of a long option and the value behind its equals sign. -/
def splitOption (cs : List Char) : String × Option String :=
  (String.ofList (cs.takeWhile (· ≠ '=')),
    match cs.dropWhile (· ≠ '=') with
    | [] => none
    | _ :: value => some (String.ofList value))

/-- Reads a level up to its end, or up to the name of a command where there may be one. Behind two
dashes every argument is a word. -/
def readLevel (g : Grammar) (literal : Bool) (l : Level) :
    List String → Except Refusal (Level × List String)
  | [] => .ok (l, [])
  | arg :: args =>
    if literal then do readLevel g true (← l.addWord g arg) args
    else match arg.toList with
      | ['-', '-'] => readLevel g true l args
      | '-' :: '-' :: cs =>
        let (name, value?) := splitOption cs
        if name = "help" then .error (if value?.isNone then .help else .usage)
        else if name = "version" ∧ g.words.isNone then
          .error (if value?.isNone then .version else .usage)
        else if g.flags.contains name then
          if value?.isSome then .error .usage else do readLevel g false (← l.addFlag name) args
        else if name = "max-steps" ∨ g.paths.contains name then
          match value?, args with
          | some value, args => do readLevel g false (← l.addValue name value) args
          | none, value :: args =>
            if isOption value then .error .usage
            else do readLevel g false (← l.addValue name value) args
          | none, [] => .error .usage
        else .error .usage
      | '-' :: c :: cs => do readLevel g false (← l.addLetters g (c :: cs)) args
      | _ =>
        if g.words.isNone then .ok (l, arg :: args)
        else do readLevel g false (← l.addWord g arg) args

/-- The command of a name and what was read behind it. -/
def command? (name : String) (l : Level) : Option Command :=
  match name, l.words, l.paths.lookup "maze" with
  | "tokens", [source], _ => some (.tokens source)
  | "check", [source], _ => some (.check source)
  | "compile", [source], _ => some (.compile source)
  | "run", [source], some maze => some (.run source maze)
  | "exec", [listing], some maze => some (.exec listing maze)
  | "builtins", [], _ => some .builtins
  | "config", [], _ => some (.config (l.flags.contains "save"))
  | _, _, _ => none

/-- Whether there is help on what is named: on the whole, or on one command. -/
def hasHelp : List String → Bool
  | [] => true
  | [name] => name = "help" || (Grammar.ofCommand? name).isSome
  | _ => false

/-- Reads the arguments of the command. -/
def readArguments (args : List String) : Except Refusal Invocation := do
  let (front, rest) ← readLevel .general false {} args
  match rest with
  | [] => throw .usage
  | name :: args =>
    if name = "help" then throw (if hasHelp args then .help else .usage)
    let some g := Grammar.ofCommand? name | throw .usage
    let (behind, _) ← readLevel g false {} args
    let some command := command? name behind | throw .usage
    return {
      command
      options := {
        json := behind.flags.contains "json" || front.flags.contains "json"
        settings := behind.paths.lookup "settings" <|> front.paths.lookup "settings"
        maxSteps := behind.maxSteps <|> front.maxSteps } }

end Labyrinth.CommandLine
