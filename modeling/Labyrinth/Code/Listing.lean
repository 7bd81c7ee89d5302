import Labyrinth.Code.Instruction
import Labyrinth.Text.Blank
import Labyrinth.Double.Numeral

/-!
# Reading listings

A line holds a mnemonic and its operands with blanks between them. Two slashes start a comment, and
a line without a word holds no instruction.
-/

namespace Labyrinth

inductive ListingProblem where
  | unknown (mnemonic : String)
  | operandCount (mnemonic : String) (expected got : Nat)
  | notInteger (word : String)
  | notNumber (word : String)
  | notCount (mnemonic : String)
deriving DecidableEq, Repr

def ListingProblem.message : ListingProblem → String
  | unknown mnemonic => "'" ++ mnemonic ++ "'"
  | operandCount mnemonic expected got =>
    mnemonic ++ " takes " ++ toString expected ++ " operand(s), got " ++ toString got
  | notInteger word => "PUSH_INT expects an integer, got '" ++ word ++ "'"
  | notNumber word => "PUSH_FLOAT expects a number, got '" ++ word ++ "'"
  | notCount mnemonic => mnemonic ++ " expects a count operand"

/-- What is wrong with a line of a listing, lines counted from one. -/
structure ListingError where
  line : Nat
  problem : ListingProblem
deriving DecidableEq, Repr

def ListingError.message (e : ListingError) : String :=
  "line " ++ toString e.line ++ ": " ++ e.problem.message

namespace Instruction

/-- The instructions without operands. -/
def plain : List Instruction :=
  BinaryOp.all.map binary ++ [neg, not, toFloat, fin, ret, retVoid, nop]

/-- The instructions that a name makes. -/
def named? : String → Option (String → Instruction)
  | "LOAD" => some load
  | "STORE" => some store
  | "LABEL" => some label
  | "JMP" => some jump
  | "JMP_IF_FALSE" => some jumpIfFalse
  | _ => none

/-- The instructions that a name and a count make. -/
def counted? : String → Option (String → Nat → Instruction)
  | "FUNC" => some func
  | "CALL" => some call
  | _ => none

/-- The one operand of an instruction. -/
def single (mnemonic : String) : List String → Except ListingProblem String
  | [word] => .ok word
  | words => .error (.operandCount mnemonic 1 words.length)

/-- Reads an instruction from the words of its line. -/
def ofWords (mnemonic : String) (operands : List String) : Except ListingProblem Instruction :=
  match plain.find? (·.mnemonic = mnemonic) with
  | some i =>
    if operands.isEmpty then .ok i else .error (.operandCount mnemonic 0 operands.length)
  | none =>
    match named? mnemonic, counted? mnemonic with
    | some make, _ => (single mnemonic operands).map make
    | none, some make =>
      match operands with
      | [name, count] =>
        match Text.word64? count.toList with
        | some n => .ok (make name n)
        | none => .error (.notCount mnemonic)
      | _ => .error (.operandCount mnemonic 2 operands.length)
    | none, none =>
      if mnemonic = "PUSH_INT" then do
        let word ← single mnemonic operands
        match Text.int64? word.toList with
        | some value => return pushInt value
        | none => throw (.notInteger word)
      else if mnemonic = "PUSH_FLOAT" then do
        let word ← single mnemonic operands
        match Double.ofChars? word.toList with
        | some value => return pushFloat value
        | none => throw (.notNumber word)
      else .error (.unknown mnemonic)

end Instruction

namespace Code

/-- The part of a line in front of its comment. -/
def beforeComment : List Char → List Char
  | [] => []
  | c :: cs => if c = '/' ∧ cs.head? = some '/' then [] else c :: beforeComment cs

/-- The instruction of a line, if it holds one. -/
def ofLine (line : List Char) : Except ListingProblem (Option Instruction) :=
  match (Text.words (beforeComment line)).map String.ofList with
  | [] => .ok none
  | mnemonic :: operands => (Instruction.ofWords mnemonic operands).map some

/-- The instructions of lines, the first of which has the number `line`. -/
def ofLines (line : Nat) : List (List Char) → Except ListingError Code
  | [] => .ok []
  | l :: ls => do
    let i? ← (ofLine l).mapError (⟨line, ·⟩)
    return i?.toList ++ (← ofLines (line + 1) ls)

/-- Reads a listing. -/
def ofListing (text : String) : Except ListingError Code :=
  ofLines 1 (Text.pieces (· = '\n') text.toList)

end Code

end Labyrinth
