import Labyrinth.Proofs.Code.Elaboration
import Labyrinth.Proofs.Machine.Rules
import Mathlib.Data.List.Forall2

/-!
# Values of a type

`Value.Has` is the form that the value of a type has at run time: a truth value is one of the integers 0
and 1. Operators and built-ins give values of the types that the analyser gives them.
-/

namespace Labyrinth

def Value.Has : Value → Ty → Prop
  | .int _, .int => True
  | .float _, .float => True
  | .int n, .bool => n = 0 ∨ n = 1
  | _, _ => False

instance : (v : Value) → (ty : Ty) → Decidable (v.Has ty)
  | .int _, .int => inferInstanceAs (Decidable True)
  | .int n, .bool => inferInstanceAs (Decidable (n = 0 ∨ n = 1))
  | .int _, .float => inferInstanceAs (Decidable False)
  | .int _, .void => inferInstanceAs (Decidable False)
  | .float _, .float => inferInstanceAs (Decidable True)
  | .float _, .int => inferInstanceAs (Decidable False)
  | .float _, .bool => inferInstanceAs (Decidable False)
  | .float _, .void => inferInstanceAs (Decidable False)

namespace Value

variable {v : Value}

theorem has_ofBool (b : Bool) : (ofBool b).Has .bool := by
  cases b
  · exact .inl rfl
  · exact .inr rfl

theorem has_int_iff : v.Has .int ↔ ∃ n, v = .int n := by
  cases v <;> simp [Has]

theorem has_float_iff : v.Has .float ↔ ∃ x, v = .float x := by
  cases v <;> simp [Has]

end Value

namespace BinaryOp

variable {op : BinaryOp} {tl tr ty : Ty} {v : Value}

/-- Whether an operator gives a number, and not a truth value. -/
def isArithmetic : BinaryOp → Bool
  | add | sub | mul | div | mod => true
  | eq | ne | lt | le | gt | ge | and | or => false

/-- Operands are not void. -/
theorem operands_of_typeOf (h : op.typeOf tl tr = .ok ty) : tl ≠ .void ∧ tr ≠ .void := by
  unfold typeOf at h
  split at h
  · cases h
  · next hv => exact not_or.mp hv

theorem typeOf_of_arithmetic (ha : op.isArithmetic) (h : op.typeOf tl tr = .ok ty) :
    ty = if tl = .float ∨ tr = .float then .float else .int := by
  unfold typeOf at h
  rw [if_neg (not_or.mpr (operands_of_typeOf h))] at h
  cases op <;> cases ha
  all_goals
    dsimp only at h
    split at h
    · cases h
    · split at h <;> cases h <;> simp_all

theorem typeOf_of_not_arithmetic (ha : op.isArithmetic = false) (h : op.typeOf tl tr = .ok ty) :
    ty = .bool := by
  unfold typeOf at h
  rw [if_neg (not_or.mpr (operands_of_typeOf h))] at h
  cases op <;> cases ha
  all_goals
    dsimp only at h
    split at h
    · exact (Except.ok.inj h).symm
    · cases h

theorem ne_void_of_typeOf (h : op.typeOf tl tr = .ok ty) : ty ≠ .void := by
  cases ha : op.isArithmetic with
  | true => rw [typeOf_of_arithmetic ha h]; split <;> exact nofun
  | false => rw [typeOf_of_not_arithmetic ha h]; exact nofun

theorem has_onInts (ha : op.isArithmetic) {m n : Int64} (hv : op.onInts? m n = some v) :
    v.Has .int := by
  cases op <;> cases ha <;> simp only [onInts?] at hv
  all_goals first | cases hv; trivial | split at hv <;> cases hv; trivial

theorem has_onFloats (ha : op.isArithmetic) {x y : Float} (hv : op.onFloats? x y = some v) :
    v.Has .float := by
  cases op <;> cases ha <;> simp only [onFloats?] at hv
  all_goals first | cases hv; trivial | split at hv <;> cases hv; trivial

theorem eval?_of_arithmetic (ha : op.isArithmetic) (a b : Value) :
    op.eval? a b = match a, b with
      | .int m, .int n => op.onInts? m n
      | a, b => op.onFloats? a.toFloat b.toFloat := by
  cases op <;> cases ha <;> cases a <;> cases b <;> rfl

theorem has_bool_eval (ha : op.isArithmetic = false) {a b : Value} (hv : op.eval? a b = some v) :
    v.Has .bool := by
  have hform : ∃ c, v = .ofBool c := by
    cases op <;> cases ha <;> cases a <;> cases b <;> exact ⟨_, (Option.some.inj hv).symm⟩
  obtain ⟨c, rfl⟩ := hform
  exact Value.has_ofBool c

/-- The value of an operator has the type that the analyser gives it. -/
theorem has_eval {a b : Value} (h : op.typeOf tl tr = .ok ty) (hl : a.Has tl) (hr : b.Has tr)
    (hv : op.eval? a b = some v) : v.Has ty := by
  cases ha : op.isArithmetic with
  | false => rw [typeOf_of_not_arithmetic ha h]; exact has_bool_eval ha hv
  | true =>
    rw [eval?_of_arithmetic ha] at hv
    rw [typeOf_of_arithmetic ha h]
    cases a with
    | float x =>
      have hf : tl = .float := by cases tl <;> simp_all [Value.Has]
      rw [if_pos (.inl hf)]
      exact has_onFloats ha hv
    | int m =>
      have hl' : tl ≠ .float := by rintro rfl; exact hl
      cases b with
      | float y =>
        have hf : tr = .float := by cases tr <;> simp_all [Value.Has]
        rw [if_pos (.inr hf)]
        exact has_onFloats ha hv
      | int n =>
        have hr' : tr ≠ .float := by rintro rfl; exact hr
        rw [if_neg (not_or.mpr ⟨hl', hr'⟩)]
        exact has_onInts ha hv

end BinaryOp

namespace UnaryOp

variable {op : UnaryOp} {te ty : Ty} {v : Value}

/-- The value of a prefix operator. -/
def eval : UnaryOp → Value → Value
  | neg => Value.neg
  | not => Value.not

theorem ne_void_of_typeOf (h : op.typeOf te = .ok ty) : te ≠ .void ∧ ty ≠ .void := by
  cases op <;> cases te <;> cases h <;> exact ⟨nofun, nofun⟩

theorem has_eval (h : op.typeOf te = .ok ty) (hv : v.Has te) : (op.eval v).Has ty := by
  cases op with
  | neg =>
    cases te <;> cases h
    · obtain ⟨n, rfl⟩ := Value.has_int_iff.mp hv; trivial
    · obtain ⟨x, rfl⟩ := Value.has_float_iff.mp hv; trivial
  | not => cases te <;> cases h; exact Value.has_ofBool _

end UnaryOp

/-! ### Values on the stack -/

theorem Ty.values_of_ne_void {ty : Ty} (h : ty ≠ .void) : ty.values = [ty] := by
  cases ty <;> first | rfl | exact absurd rfl h

/-! ### Built-ins -/

/-- The type of what a built-in gives. -/
def Action.ret : Action → Ty
  | .moveForward | .isWall | .completed => .bool
  | .turnLeft | .turnRight | .teleport | .print => .void

theorem Builtin.action_of_mem {action : Action} :
    ∀ b ∈ table, b.action = some action → b.ret = action.ret ∧ b.params.length = action.arity := by
  cases action <;> decide

namespace World

variable {w w' : World} {action : Action} {args : List Value}

theorem print_store (vs : List Value) (w : World) : (vs.foldl print w).store = w.store := by
  induction vs generalizing w with
  | nil => rfl
  | cons v vs ih => exact ih (w.print v)

/-- A built-in keeps the variables and gives a value of its type. -/
theorem perform_ok {v : Option Value} (h : w.perform action args = .ok (v, w')) :
    w'.store = w.store ∧ List.Forall₂ Value.Has v.toList action.ret.values := by
  have hbool (b : Bool) : List.Forall₂ Value.Has [.ofBool b] [.bool] :=
    .cons (Value.has_ofBool b) .nil
  unfold perform at h
  split at h
  · obtain ⟨c, -, h⟩ := Except.bind_eq_ok.mp h
    split at h <;> cases h <;> exact ⟨rfl, hbool _⟩
  · cases h; exact ⟨rfl, .nil⟩
  · cases h; exact ⟨rfl, .nil⟩
  · obtain ⟨c, -, h⟩ := Except.bind_eq_ok.mp h
    cases h; exact ⟨rfl, hbool _⟩
  · cases h; exact ⟨rfl, hbool _⟩
  · split at h <;> cases h; exact ⟨rfl, .nil⟩
  · cases h
  · cases h
  · cases h; exact ⟨rfl, .nil⟩
  · cases h; exact ⟨print_store _ _, .nil⟩

/-- A built-in fails outside of the grid or for a coordinate that is a float. -/
theorem perform_error {f : Fault} (h : w.perform action args = .error f) :
    (∃ x y, f = .outOfBounds x y) ∨
      ∃ x, f = .type (.teleport x) ∧ action = .teleport ∧ .float x ∈ args := by
  unfold perform at h
  split at h
  · cases hc : w.cellAhead with
    | error g => rw [hc] at h; cases h; exact .inl (cellAhead_eq_error hc)
    | ok c => rw [hc] at h; simp only [bind, Except.bind] at h; split at h <;> cases h
  · cases h
  · cases h
  · cases hc : w.cellAhead with
    | error g => rw [hc] at h; cases h; exact .inl (cellAhead_eq_error hc)
    | ok c => rw [hc] at h; cases h
  · cases h
  · split at h <;> cases h; exact .inl ⟨_, _, rfl⟩
  · cases h; exact .inr ⟨_, rfl, rfl, by simp⟩
  · cases h; exact .inr ⟨_, rfl, rfl, by simp⟩
  · cases h
  · cases h

end World

end Labyrinth
