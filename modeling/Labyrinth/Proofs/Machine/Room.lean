import Labyrinth.Proofs.Machine.Carries

/-!
# Room on the stacks

A step adds a value and an open call at most, and a stack is only said to be full if it is. So with limits
above the number of its steps, a run does not fail for want of room.
-/

namespace Labyrinth

theorem Stack.size_le_of_pop? {α : Type} {stack stack' : Stack α} {x : α}
    (h : stack.pop? = some (x, stack')) : stack'.size ≤ stack.size := by
  have hsize := congrArg List.length (pop?_eq_some_iff.mp h)
  rw [List.length_cons, ← stack.size_eq, ← stack'.size_eq] at hsize
  omega

namespace Machine

variable {m : Machine} {k l n : Nat} {s t : State} {f : Fault}

/-- What an instruction leads to from a state with `k` values and `l` open calls. -/
def Fits (m : Machine) (k l : Nat) : Except Fault Next → Prop
  | .ok (.state t) => t.stack.size ≤ k + 1 ∧ t.frames.size ≤ l + 1
  | .ok (.halt _ _) => True
  | .error f => f.IsOverflow → m.maxStack ≤ k ∨ m.maxStack ≤ l

theorem carries_fits (m : Machine) (k l : Nat) :
    m.Carries (fun s => s.stack.size ≤ k ∧ s.frames.size ≤ l) (m.Fits k l) where
  state := fun ⟨hs, hf⟩ => ⟨Nat.le_succ_of_le hs, Nat.le_succ_of_le hf⟩
  error := fun hf h => absurd h hf
  push := by
    rintro s ⟨hs, hf⟩ v
    unfold push
    split
    · exact ⟨Nat.succ_le_succ hs, Nat.le_succ_of_le hf⟩
    · next hfull => exact fun _ => .inl (Nat.le_trans (Nat.le_of_not_lt hfull) hs)
  pop := fun ⟨hs, hf⟩ hpop => ⟨Nat.le_trans (Stack.size_le_of_pop? hpop) hs, hf⟩
  world := fun hs _ => hs

theorem fits_back (hs : s.stack.size ≤ k) (hf : s.frames.size ≤ l) (v : Option Value) :
    m.Fits k l (.ok (back s v)) := by
  unfold back
  split
  · next hpop =>
    exact ⟨Nat.le_succ_of_le hs, Nat.le_succ_of_le (Nat.le_trans (Stack.size_le_of_pop? hpop) hf)⟩
  · exact trivial

theorem fits_take (m : Machine) (s : State) (op : Op) :
    m.Fits s.stack.size s.frames.size (m.take s op) := by
  refine (carries_fits m _ _).step id (fun v hs => fits_back hs.1 hs.2 v) ?_
    (s := behind s) ⟨Nat.le_refl _, Nat.le_refl _⟩ s.ip op
  rintro t entry ⟨hs, hf⟩
  split
  · exact ⟨Nat.le_succ_of_le hs, Nat.succ_le_succ hf⟩
  · next hfull => exact fun _ => .inr (Nat.le_trans (Nat.le_of_not_lt hfull) hf)

theorem Step.size_le (h : m.Step s t) :
    t.stack.size ≤ s.stack.size + 1 ∧ t.frames.size ≤ s.frames.size + 1 := by
  obtain ⟨op, -, ht⟩ := h
  have hfits := fits_take m s op
  rw [ht] at hfits
  exact hfits

theorem Steps.size_le (h : m.Steps n s t) :
    t.stack.size ≤ s.stack.size + n ∧ t.frames.size ≤ s.frames.size + n := by
  induction h with
  | refl => exact ⟨Nat.le_refl _, Nat.le_refl _⟩
  | head hst _ ih =>
    have hsize := hst.size_le
    omega

/-- A stack is full if a run fails for that reason. -/
theorem Fails.full (h : m.Fails s f) (hf : f.IsOverflow) :
    m.maxStack ≤ s.stack.size ∨ m.maxStack ≤ s.frames.size := by
  obtain ⟨op, -, ht⟩ := h
  have hfits := fits_take m s op
  rw [ht] at hfits
  exact hfits hf

end Machine

end Labyrinth
