import Labyrinth.Program
import Labyrinth.Json.Basic

/-!
# Instructions of the stack machine

An instruction names labels, functions and variables by their names. `Instruction.text` is one line
of a listing.
-/

namespace Labyrinth

inductive Instruction where
  | pushInt (value : Int64)
  | pushFloat (value : Float)
  | load (name : String)
  | store (name : String)
  | binary (op : BinaryOp)
  | neg
  | not
  /-- Turns the integer on top of the stack into a float. -/
  | toFloat
  | label (name : String)
  | jump (label : String)
  | jumpIfFalse (label : String)
  | func (name : String) (arity : Nat)
  | fin
  | call (name : String) (argc : Nat)
  | ret
  | retVoid
  /-- Stands behind an expression whose value is not used; the value stays on the stack. -/
  | nop

abbrev Code := List Instruction

def BinaryOp.mnemonic : BinaryOp → String
  | add => "ADD"
  | sub => "SUB"
  | mul => "MUL"
  | div => "DIV"
  | mod => "MOD"
  | eq => "EQ"
  | ne => "NE"
  | lt => "LT"
  | le => "LE"
  | gt => "GT"
  | ge => "GE"
  | and => "AND"
  | or => "OR"

namespace Instruction

def mnemonic : Instruction → String
  | pushInt _ => "PUSH_INT"
  | pushFloat _ => "PUSH_FLOAT"
  | load _ => "LOAD"
  | store _ => "STORE"
  | binary op => op.mnemonic
  | neg => "NEG"
  | not => "NOT"
  | toFloat => "TO_FLOAT"
  | label _ => "LABEL"
  | jump _ => "JMP"
  | jumpIfFalse _ => "JMP_IF_FALSE"
  | func _ _ => "FUNC"
  | fin => "END"
  | call _ _ => "CALL"
  | ret => "RET"
  | retVoid => "RET_VOID"
  | nop => "NOP"

/-- The words behind the mnemonic. -/
def operands : Instruction → List String
  | pushInt value => [toString value.toInt]
  | pushFloat value => [Layout.listing.render value]
  | load name | store name | label name | jump name | jumpIfFalse name => [name]
  | func name count | call name count => [name, toString count]
  | binary _ | neg | not | toFloat | fin | ret | retVoid | nop => []

def text (i : Instruction) : String :=
  " ".intercalate (i.mnemonic :: i.operands)

/-- The operands as a JSON value. -/
def argsJson? : Instruction → Option Json
  | pushInt value => some (.int value.toInt)
  | pushFloat value => some (.float value)
  | load name | store name | label name | jump name | jumpIfFalse name => some (.str name)
  | func name arity => some (.obj [("name", .str name), ("arity", .int arity)])
  | call name argc => some (.obj [("name", .str name), ("argc", .int argc)])
  | binary _ | neg | not | toFloat | fin | ret | retVoid | nop => none

def toJson (i : Instruction) : Json :=
  .obj (("op", .str i.mnemonic) :: (i.argsJson?.map ("args", ·)).toList)

end Instruction

namespace Code

/-- The listing of a code, one instruction a line. -/
def listing (code : Code) : String :=
  String.join (code.map fun i => i.text ++ "\n")

def toJson (code : Code) : Json :=
  .arr (code.map Instruction.toJson)

end Code

end Labyrinth
