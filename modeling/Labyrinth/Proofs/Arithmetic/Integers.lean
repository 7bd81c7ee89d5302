import Mathlib.Data.Int.ModEq
import Labyrinth.Proofs.Machine.Rules

/-!
# The operators on integers of 64 bits

What an operator gives on two integers of 64 bits, said by what it would give on integers without bounds
(`BinaryOp.Computes`), and what the machine makes of it (`Machine.step_binary`). A value that is an integer
of 64 bits is exact (`BinaryOp.eval?_of_fits`).
-/

namespace Labyrinth

/-- Whether an integer is one of 64 bits. -/
def Fits64 (n : Int) : Prop := -2 ^ 63 ≤ n ∧ n < 2 ^ 63

instance (n : Int) : Decidable (Fits64 n) := inferInstanceAs (Decidable (_ ∧ _))

theorem Fits64.toInt_ofInt {n : Int} (h : Fits64 n) : (Int64.ofInt n).toInt = n :=
  Int64.toInt_ofInt_of_le h.1 h.2

/-- An integer of 64 bits is its own remainder in the range. -/
theorem Fits64.bmod_eq {n : Int} (h : Fits64 n) : n.bmod (2 ^ 64) = n :=
  Int.bmod_eq_of_le (Int.le_trans (by decide) h.1) (Int.lt_of_lt_of_le h.2 (by decide))

theorem toInt_ne_zero {y : Int64} (hy : y ≠ 0) : y.toInt ≠ 0 := fun h => hy (Int64.toInt_inj.mp h)

theorem Value.not_ofBool (b : Bool) : (Value.ofBool b).not = .ofBool !b := by
  cases b <;> rfl

namespace BinaryOp

/-- Whether an operator divides. -/
def Divides (op : BinaryOp) : Prop := op = div ∨ op = mod

/-- An arithmetic operator on integers without bounds; `none` is a division by zero, or an operator of
another kind. -/
def integer? : BinaryOp → Int → Int → Option Int
  | add, m, n => some (m + n)
  | sub, m, n => some (m - n)
  | mul, m, n => some (m * n)
  | div, m, n => if n = 0 then none else some (m.tdiv n)
  | mod, m, n => if n = 0 then none else some (m.tmod n)
  | _, _, _ => none

/-- The operator that holds of two things in this order, and the other two do not. -/
def ofOrdering : Ordering → BinaryOp
  | .lt => lt
  | .eq => eq
  | .gt => gt

/-- What the operators give on `x` and `y`. -/
structure Computes (x y : Int64) : Prop where
  fails_iff : ∀ op : BinaryOp, op.eval? (.int x) (.int y) = none ↔ op.Divides ∧ y = 0
  /-- A sum, a difference and a product are reduced into the range. -/
  reduced : ∀ (op : BinaryOp) (n : Int), ¬op.Divides → op.integer? x.toInt y.toInt = some n →
    ∃ v : Int64, op.eval? (.int x) (.int y) = some (.int v) ∧ v.toInt = n.bmod (2 ^ 64)
  /-- A quotient is cut off toward zero and reduced, and the remainder belongs to it. -/
  divided : y ≠ 0 → ∃ q r : Int64, div.eval? (.int x) (.int y) = some (.int q) ∧
    mod.eval? (.int x) (.int y) = some (.int r) ∧ q.toInt = (x.toInt.tdiv y.toInt).bmod (2 ^ 64) ∧
    r.toInt = x.toInt.tmod y.toInt ∧ y.toInt * q.toInt + r.toInt ≡ x.toInt [ZMOD 2 ^ 64] ∧
    r.toInt.natAbs < y.toInt.natAbs ∧ (r ≠ 0 → r.toInt.sign = x.toInt.sign)
  /-- One of the three gives 1, and the other two give 0. -/
  ordered : ∀ op ∈ [lt, eq, gt], op.eval? (.int x) (.int y) =
    some (.int (if op = ofOrdering (compare x.toInt y.toInt) then 1 else 0))
  le_eq : le.eval? (.int x) (.int y) = (gt.eval? (.int x) (.int y)).map Value.not
  ge_eq : ge.eval? (.int x) (.int y) = (lt.eval? (.int x) (.int y)).map Value.not
  ne_eq : ne.eval? (.int x) (.int y) = (eq.eval? (.int x) (.int y)).map Value.not

variable {op : BinaryOp} {x y : Int64} {n : Int}

/-! ### One operator -/

theorem eval?_eq_none_iff : op.eval? (.int x) (.int y) = none ↔ op.Divides ∧ y = 0 := by
  unfold Divides
  cases op <;> simp [eval?, onInts?]

theorem eval?_of_not_divides (hop : ¬op.Divides) (hn : op.integer? x.toInt y.toInt = some n) :
    ∃ v : Int64, op.eval? (.int x) (.int y) = some (.int v) ∧ v.toInt = n.bmod (2 ^ 64) := by
  cases op with
  | add => cases hn; exact ⟨x + y, rfl, Int64.toInt_add x y⟩
  | sub => cases hn; exact ⟨x - y, rfl, Int64.toInt_sub x y⟩
  | mul => cases hn; exact ⟨x * y, rfl, Int64.toInt_mul x y⟩
  | div => exact absurd (.inl rfl) hop
  | mod => exact absurd (.inr rfl) hop
  | _ => cases hn

theorem div_eval? (hy : y ≠ 0) : div.eval? (.int x) (.int y) = some (.int (x / y)) := if_neg hy

theorem mod_eval? (hy : y ≠ 0) : mod.eval? (.int x) (.int y) = some (.int (x % y)) := if_neg hy

/-- The divisor times the reduced quotient, together with the remainder, is the dividend but for multiples
of the range. -/
theorem mul_bmod_add_tmod (m n : Int) :
    n * (m.tdiv n).bmod (2 ^ 64) + m.tmod n ≡ m [ZMOD 2 ^ 64] := by
  have hquot : (m.tdiv n).bmod (2 ^ 64) ≡ m.tdiv n [ZMOD 2 ^ 64] := Int.bmod_emod
  calc n * (m.tdiv n).bmod (2 ^ 64) + m.tmod n
    _ ≡ n * m.tdiv n + m.tmod n [ZMOD 2 ^ 64] := (hquot.mul_left n).add_right _
    _ = m := Int.mul_tdiv_add_tmod m n

theorem sign_tmod_of_ne_zero {m n : Int} (h : m.tmod n ≠ 0) : (m.tmod n).sign = m.sign := by
  have hdvd : ¬n ∣ m := fun hdvd => h (Int.tmod_eq_zero_of_dvd hdvd)
  rw [Int.sign_tmod, if_neg hdvd]

/-- Integers are compared by their order. -/
theorem eval?_ordered (hop : op ∈ [lt, eq, gt]) : op.eval? (.int x) (.int y) =
    some (.int (if op = ofOrdering (compare x.toInt y.toInt) then 1 else 0)) := by
  have hvalue (b : Prop) [Decidable b] (hb : b ↔ op = ofOrdering (compare x.toInt y.toInt))
      (h : op.eval? (.int x) (.int y) = some (.ofBool b)) : op.eval? (.int x) (.int y) =
        some (.int (if op = ofOrdering (compare x.toInt y.toInt) then 1 else 0)) := by
    rw [h, Value.ofBool]
    simp only [hb, decide_eq_true_eq]
  have horder {o o' : Ordering} : ofOrdering o = ofOrdering o' ↔ o = o' := by
    cases o <;> cases o' <;> decide
  simp only [List.mem_cons, List.not_mem_nil, or_false] at hop
  rcases hop with rfl | rfl | rfl
  · refine hvalue (x < y) ?_ rfl
    rw [Int64.lt_iff_toInt_lt, ← compare_lt_iff_lt]
    exact eq_comm.trans (horder (o := .lt)).symm
  · refine hvalue (x = y) ?_ rfl
    rw [← Int64.toInt_inj, ← compare_eq_iff_eq]
    exact eq_comm.trans (horder (o := .eq)).symm
  · refine hvalue (y < x) ?_ rfl
    rw [Int64.lt_iff_toInt_lt, ← compare_gt_iff_gt]
    exact eq_comm.trans (horder (o := .gt)).symm

/-- The operators on every two integers of 64 bits. -/
theorem computes (x y : Int64) : Computes x y where
  fails_iff _ := eval?_eq_none_iff
  reduced _ _ := eval?_of_not_divides
  divided hy := by
    have hquot := Int64.toInt_div x y
    have hrem := Int64.toInt_mod x y
    have hpos : 0 < y.toInt.natAbs := Int.natAbs_pos.mpr (toInt_ne_zero hy)
    refine ⟨x / y, x % y, div_eval? hy, mod_eval? hy, hquot, hrem, ?_, ?_, fun hr => ?_⟩
    · rw [hquot, hrem]
      exact mul_bmod_add_tmod x.toInt y.toInt
    · rw [hrem, Int.natAbs_tmod]
      exact Nat.mod_lt _ hpos
    · rw [hrem]
      exact sign_tmod_of_ne_zero (hrem ▸ toInt_ne_zero hr)
  ordered _ := eval?_ordered
  le_eq := by
    have hle : decide (x ≤ y) = !decide (y < x) := by rw [← decide_not, decide_eq_decide, Int64.not_lt]
    exact congrArg some (by rw [Value.not_ofBool, hle])
  ge_eq := by
    have hge : decide (y ≤ x) = !decide (x < y) := by rw [← decide_not, decide_eq_decide, Int64.not_lt]
    exact congrArg some (by rw [Value.not_ofBool, hge])
  ne_eq := by
    have hne : decide (x ≠ y) = !decide (x = y) := decide_not
    exact congrArg some (by rw [Value.not_ofBool, hne])

/-- An arithmetic operator is exact where its value is an integer of 64 bits. -/
theorem eval?_of_fits (hn : op.integer? x.toInt y.toInt = some n) (hfits : Fits64 n) :
    op.eval? (.int x) (.int y) = some (.int (.ofInt n)) := by
  have hexact {v : Int64} (hv : v.toInt = n.bmod (2 ^ 64)) : v = .ofInt n := by
    rw [← Int64.toInt_inj, hv, hfits.bmod_eq, hfits.toInt_ofInt]
  by_cases hop : op.Divides
  · have hy : y ≠ 0 := by
      rintro rfl
      rcases hop with rfl | rfl <;> cases hn
    have hn' (m : Int) : (if y.toInt = 0 then none else some m) = some n → m = n := by
      rw [if_neg (toInt_ne_zero hy)]
      exact Option.some.inj
    rcases hop with rfl | rfl
    · obtain rfl := hn' _ hn
      rw [div_eval? hy, hexact (Int64.toInt_div x y)]
    · obtain rfl := hn' _ hn
      rw [mod_eval? hy, hexact ((Int64.toInt_mod x y).trans hfits.bmod_eq.symm)]
  · obtain ⟨v, hv, hmod⟩ := eval?_of_not_divides hop hn
    rw [hv, hexact hmod]

end BinaryOp

end Labyrinth
