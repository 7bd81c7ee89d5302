import Labyrinth.Machine.Value
import Labyrinth.Code.Instruction
import Labyrinth.Builtin

/-!
# Linked code

In linked code the names of labels and functions are replaced by places in the code. Of two labels
or functions of one name the first counts, and a built-in with an action goes before a function of
its name. A name without a place stays, since only an instruction that is reached may fail.
-/

namespace Labyrinth

/-- The place of a label. -/
def Code.labelAddress? (code : Code) (name : String) : Option Nat :=
  code.findIdx? fun
    | .label l => l = name
    | _ => false

/-- The place behind the head of a function. -/
def Code.entry? (code : Code) (name : String) : Option Nat :=
  (code.findIdx? fun
    | .func f _ => f = name
    | _ => false).map (· + 1)

/-- What a call does. -/
inductive Target where
  | action (a : Action)
  | address (ip : Nat)
  | unresolved
deriving DecidableEq, Repr

def Code.target (code : Code) (name : String) : Target :=
  match (Builtin.find? name).bind (·.action) with
  | some a => .action a
  | none =>
    match code.entry? name with
    | some ip => .address ip
    | none => .unresolved

/-- An instruction of linked code. -/
inductive Op where
  | push (v : Value)
  | load (name : String)
  | store (name : String)
  | binary (op : BinaryOp)
  | neg
  | not
  | toFloat
  | skip
  | jump (target : Option Nat) (label : String)
  | jumpIfFalse (target : Option Nat) (label : String)
  | call (target : Target) (name : String)
  | ret
  | retVoid

/-- An instruction of a code, linked. -/
def Op.ofInstruction (code : Code) : Instruction → Op
  | .pushInt n => .push (.int n)
  | .pushFloat x => .push (.float x)
  | .load name => .load name
  | .store name => .store name
  | .binary op => .binary op
  | .neg => .neg
  | .not => .not
  | .toFloat => .toFloat
  | .label _ | .func _ _ | .nop => .skip
  | .jump l => .jump (code.labelAddress? l) l
  | .jumpIfFalse l => .jumpIfFalse (code.labelAddress? l) l
  | .call name _ => .call (code.target name) name
  | .ret => .ret
  | .retVoid | .fin => .retVoid

def Code.link (code : Code) : Array Op :=
  (code.map (Op.ofInstruction code)).toArray

end Labyrinth
