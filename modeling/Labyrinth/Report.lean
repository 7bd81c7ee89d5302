import Labyrinth.Json.Basic
import Labyrinth.Location

/-!
# Reports

A `Report` is a message with the stage of the work at which it arose and, as far as it is known, the
place in the source text.
-/

namespace Labyrinth

/-- A message about a place of a source text. -/
structure Diagnostic where
  message : String
  line : Option Nat := none
  column : Option Nat := none
deriving DecidableEq, Repr

namespace Diagnostic

def placed (message : String) (loc : Location) : Diagnostic :=
  ⟨message, some loc.line, some loc.column⟩

/-- The message and its place. A column without a line is not shown. -/
def display (d : Diagnostic) : String :=
  d.message ++ match d.line, d.column with
    | some line, some column => " (line " ++ toString line ++ ", column " ++ toString column ++ ")"
    | some line, none => " (line " ++ toString line ++ ")"
    | none, _ => ""

def toJson (d : Diagnostic) : Json :=
  .obj ([("message", .str d.message)] ++ (d.line.map fun n => ("line", Json.int n)).toList ++
    (d.column.map fun n => ("column", Json.int n)).toList)

end Diagnostic

/-- The stages from a source text to the end of a run. -/
inductive Stage where
  | scanning
  | parsing
  | analysis
  | coding
  | running
deriving DecidableEq, Repr

namespace Stage

def name : Stage → String
  | scanning => "lexical"
  | parsing => "syntax"
  | analysis => "semantic"
  | coding => "compile"
  | running => "runtime"

/-- How a report of the stage starts. -/
def heading : Stage → String
  | scanning => "Lexer error: "
  | parsing => "Parser error: "
  | analysis => "Semantic Analysis Error: "
  | coding => "Compiler Error: "
  | running => "Runtime Error: "

end Stage

structure Report where
  stage : Stage
  diagnostic : Diagnostic
deriving DecidableEq, Repr

namespace Report

def display (r : Report) : String :=
  r.stage.heading ++ r.diagnostic.display

/-- A run has no place in a source text, so what it reports is a bare message. -/
def toJson (r : Report) : Json :=
  .obj [("stage", .str r.stage.name),
    ("detail", if r.stage = .running then .str r.diagnostic.message else r.diagnostic.toJson)]

end Report

end Labyrinth
