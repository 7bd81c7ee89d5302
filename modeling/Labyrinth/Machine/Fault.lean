import Labyrinth.Machine.Value
import Labyrinth.Code.Listing
import Labyrinth.Settings

/-!
# What stops a run

A `Fault` is the reason for which a listing cannot be read or a run cannot start or go on. Places in
the code are counted from zero.
-/

namespace Labyrinth

inductive TypeProblem where
  | startHeading (dirX dirY : Int64)
  | teleport (got : Float)

def TypeProblem.message : TypeProblem → String
  | startHeading dirX dirY => notHeadingMessage dirX dirY
  | teleport got => "teleport expects int coordinates, got " ++ Layout.listing.render got

inductive Fault where
  | missingMain
  | unresolvedLabel (name : String)
  | unresolvedCall (name : String)
  | unknownInstruction (e : ListingError)
  | outOfBounds (x y : Int64)
  | noStartCell
  | stepsExceeded (limit : Nat)
  | stackOverflow (limit : Nat)
  | stackUnderflow (ip : Nat)
  | undefinedVariable (name : String)
  | divisionByZero (ip : Nat)
  | type (problem : TypeProblem)

namespace Fault

def message : Fault → String
  | missingMain => "program has no 'main' function"
  | unresolvedLabel name => "unresolved label '" ++ name ++ "'"
  | unresolvedCall name => "unresolved call target '" ++ name ++ "'"
  | unknownInstruction e => "unknown opcode: " ++ e.message
  | outOfBounds x y =>
    "grid access out of bounds at (" ++ toString x.toInt ++ ", " ++ toString y.toInt ++ ")"
  | noStartCell => "maze has no start cell"
  | stepsExceeded limit => "instruction budget of " ++ toString limit ++ " exceeded"
  | stackOverflow limit => "operand stack exceeded " ++ toString limit ++ " values"
  | stackUnderflow ip => "operand stack underflow at instruction " ++ toString ip
  | undefinedVariable name => "variable '" ++ name ++ "' is not defined"
  | divisionByZero ip => "division by zero at instruction " ++ toString ip
  | type problem => problem.message

def name : Fault → String
  | missingMain => "MissingMain"
  | unresolvedLabel _ => "UnresolvedLabel"
  | unresolvedCall _ => "UnresolvedCall"
  | unknownInstruction _ => "UnknownOpcode"
  | outOfBounds _ _ => "OutOfBounds"
  | noStartCell => "NoStartCell"
  | stepsExceeded _ => "StepLimitExceeded"
  | stackOverflow _ => "StackOverflow"
  | stackUnderflow _ => "StackUnderflow"
  | undefinedVariable _ => "UndefinedVariable"
  | divisionByZero _ => "DivisionByZero"
  | type _ => "TypeFault"

end Fault

end Labyrinth
