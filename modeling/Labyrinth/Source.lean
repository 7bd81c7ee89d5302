import Labyrinth.Token.Scan
import Labyrinth.Program.Parser
import Labyrinth.Typing.Check
import Labyrinth.Code.OfProgram
import Labyrinth.Machine.Run
import Labyrinth.Report

/-!
# From a source text to a run

The stages one after the other. The first that fails decides the `Failure`.
-/

namespace Labyrinth

inductive Failure where
  | lexical (e : LexicalError)
  | syntactic (e : SyntaxError)
  | semantic (e : SemanticError)
  | refused (problem : CodeProblem) (loc : Location)
  | fault (f : Fault)

namespace Failure

def ofCodeError : CodeError → Failure
  | .semantic e => semantic e
  | .refused problem loc => refused problem loc

def report : Failure → Report
  | lexical e => ⟨.scanning, .placed e.message e.loc⟩
  | syntactic e => ⟨.parsing, .placed e.message e.loc⟩
  | semantic e => ⟨.analysis, .placed e.message e.loc⟩
  | refused problem loc => ⟨.coding, .placed problem.message loc⟩
  | fault f => ⟨.running, { message := f.message }⟩

end Failure

namespace Source

def lexemes (source : String) : Except Failure (List Lexeme) :=
  (Token.scan source).mapError .lexical

def program (source : String) : Except Failure Program := do
  (Program.ofLexemes (← lexemes source)).mapError .syntactic

/-- The program of a source text that obeys the rules of types. -/
def checked (source : String) : Except Failure Program := do
  let p ← program source
  p.check.mapError .semantic
  return p

/-- The code of a source text. -/
def compile (source : String) : Except Failure Code := do
  (← checked source).code.mapError .ofCodeError

/-- The code of a source text that is not checked first. -/
def compileUnchecked (source : String) : Except Failure Code := do
  (← program source).code.mapError .ofCodeError

/-- Runs the code of a source text in a maze. -/
def run (source : String) (maze : Maze) (settings : Settings) : Except Failure Outcome := do
  ((← compile source).run maze settings).mapError .fault

end Source

/-- The code of a listing. -/
def Code.read (text : String) : Except Failure Code :=
  (Code.ofListing text).mapError fun e => .fault (.unknownInstruction e)

end Labyrinth
