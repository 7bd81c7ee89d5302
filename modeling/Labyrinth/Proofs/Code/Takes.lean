import Labyrinth.Proofs.Code.Origins
import Labyrinth.Proofs.Code.Places

/-!
# The marks fit the instructions

The mark of an instruction has a type for every value that the instruction takes, and that of a call has
the types of the slots of the function that is called.
-/

namespace Labyrinth

/-- The number of values that an instruction takes from the stack. A return leaves them there. -/
def Instruction.pops : Instruction → Nat
  | .store _ | .neg | .not | .toFloat | .jumpIfFalse _ => 1
  | .binary _ => 2
  | .call _ argc => argc
  | _ => 0

/-- A call takes what the slots of a function ask for. -/
def Program.CallFits (p : Program) (name : String) (argc : Nat) (mark : Mark) : Prop :=
  ∃ sig tys, p.Callee name sig ∧ argc = sig.params.length ∧ mark = .taking tys.reverse ∧
    ∀ ts : List Ty, sig.params = ts.map Slot.exact → tys = ts

structure Line.Fits (p : Program) (l : Line) : Prop where
  pops : l.instruction.pops ≤ l.mark.takes.length
  call : ∀ name argc, l.instruction = .call name argc → p.CallFits name argc l.mark

variable {p : Program}

theorem Line.Made.fits {l : Line} (h : l.Made p) : l.Fits p := by
  cases h with
  | call hcallee hargc hlength htys =>
    constructor
    case pops => simp [Instruction.pops, Mark.taking, hargc, hlength]
    case call =>
      rintro name argc h
      cases h
      exact ⟨_, _, hcallee, hargc, rfl, htys⟩
  | unary o t => cases o <;> exact ⟨Nat.le_refl 1, nofun⟩
  | binary o tl tr => exact ⟨Nat.le_refl 2, nofun⟩
  | toFloat | store | branch => exact ⟨Nat.le_refl 1, nofun⟩
  | _ => exact ⟨Nat.zero_le _, nofun⟩

/-- Every instruction of a program has its line, which fits. -/
theorem Program.Coded.fits {ls : List Line} (h : p.Coded ls) {a : Nat} {i : Instruction}
    (hi : (Line.code ls)[a]? = some i) :
    ∃ l, ls[a]? = some l ∧ l.instruction = i ∧ p.marks[a]? = some l.mark ∧ l.Fits p := by
  rw [Line.code, List.getElem?_map, Option.map_eq_some_iff] at hi
  obtain ⟨l, hl, rfl⟩ := hi
  refine ⟨l, hl, rfl, ?_, (CodedFrom.made h l (List.mem_of_getElem? hl)).fits⟩
  rw [h.marks_eq, Line.marks, List.getElem?_map, hl]
  rfl

end Labyrinth
