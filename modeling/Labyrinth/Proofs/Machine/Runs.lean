import Labyrinth.Proofs.Machine.Steps

/-!
# Reasoning about parts of a run

`Runs W m out Q n j s`: from `s` the machine comes within `n` steps to a state with `Q`, or to a fault
that `W` allows, or, if `out` holds, it takes `n` steps. In front of every step `W` holds, and `j`
together with what `W` counts on the way is handed to `Q`. Parts of a run are put together by
`Runs.bind`, `Runs.after` and `Runs.resume`.
-/

namespace Labyrinth

/-- What is watched during a run. -/
structure Watch where
  /-- Holds in front of each step. -/
  holds : State → Prop
  /-- The faults that may end the run. -/
  allows : Fault → Prop
  counts : State → Nat

namespace Machine

inductive Runs (W : Watch) (m : Machine) (out : Prop) (Q : Nat → State → Prop) :
    Nat → Nat → State → Prop
  | done {n j : Nat} {s : State} : Q j s → Runs W m out Q n j s
  | out {j : Nat} {s : State} : out → Runs W m out Q 0 j s
  | step {n j : Nat} {s t : State} :
      W.holds s → m.Step s t → Runs W m out Q n (j + W.counts s) t → Runs W m out Q (n + 1) j s
  | fault {n j : Nat} {s : State} {f : Fault} :
      W.holds s → m.Fails s f → W.allows f → Runs W m out Q (n + 1) j s

variable {W W' : Watch} {m : Machine} {out : Prop} {Q Q' : Nat → State → Prop} {n k j : Nat}
  {s t : State}

namespace Runs

/-- Less is asked of the run. -/
theorem mono (hholds : ∀ s, W.holds s → W'.holds s) (hallows : ∀ f, W.allows f → W'.allows f)
    (hcounts : W'.counts = W.counts) (hQ : ∀ j t, Q j t → Q' j t) (h : Runs W m out Q n j s) :
    Runs W' m out Q' n j s := by
  induction h with
  | done h => exact .done (hQ _ _ h)
  | out h => exact .out h
  | step hh hs _ ih => exact .step (hholds _ hh) hs (by rw [hcounts]; exact ih)
  | fault hh hf ha => exact .fault (hholds _ hh) hf (hallows _ ha)

theorem imp (hQ : ∀ j t, Q j t → Q' j t) (h : Runs W m out Q n j s) : Runs W m out Q' n j s :=
  h.mono (fun _ => id) (fun _ => id) rfl hQ

/-- A run that may take all its steps may take fewer. -/
theorem of_le (h : Runs W m True Q n j s) : ∀ {k : Nat}, k ≤ n → Runs W m True Q k j s := by
  induction h with
  | done h => exact fun _ => .done h
  | out h => intro k hk; obtain rfl := Nat.le_zero.mp hk; exact .out h
  | step hh hs _ ih =>
    intro k hk
    cases k with
    | zero => exact .out trivial
    | succ k => exact .step hh hs (ih (Nat.le_of_succ_le_succ hk))
  | fault hh hf ha =>
    intro k _
    cases k with
    | zero => exact .out trivial
    | succ k => exact .fault hh hf ha

/-- A run goes on with the steps that are left. -/
theorem bind (h : Runs W m out Q n j s)
    (next : ∀ k ≤ n, ∀ j t, Q j t → Runs W m out Q' k j t) : Runs W m out Q' n j s := by
  induction h with
  | done h => exact next _ (Nat.le_refl _) _ _ h
  | out h => exact .out h
  | step hh hs _ ih => exact .step hh hs (ih fun k hk => next k (Nat.le_succ_of_le hk))
  | fault hh hf ha => exact .fault hh hf ha

/-- A run that comes to its end within some steps does so within more. -/
theorem more (h : Runs W m False Q k j s) (n : Nat) : Runs W m False Q (k + n) j s := by
  induction h with
  | done h => exact .done h
  | out h => exact h.elim
  | step hh hs _ ih => rw [Nat.add_right_comm]; exact .step hh hs ih
  | fault hh hf ha => rw [Nat.add_right_comm]; exact .fault hh hf ha

/-- A run that comes to its end goes on with `k` steps more. -/
theorem after (h : Runs W m False Q n j s) (next : ∀ j t, Q j t → Runs W m False Q' k j t) :
    Runs W m False Q' (n + k) j s := by
  induction h with
  | @done n j s h => rw [Nat.add_comm]; exact (next j s h).more n
  | out h => exact h.elim
  | step hh hs _ ih => rw [Nat.add_right_comm]; exact .step hh hs ih
  | fault hh hf ha => rw [Nat.add_right_comm]; exact .fault hh hf ha

/-- A run that comes to its end goes on with a run of `k` steps, of which it may take all. -/
theorem resume (h : Runs W m False Q n j s) (next : ∀ j t, Q j t → Runs W m True Q' k j t) :
    Runs W m True Q' k j s := by
  induction h with
  | done h => exact next _ _ h
  | out h => exact h.elim
  | step hh hs _ ih => exact of_le (.step hh hs ih) (Nat.le_succ k)
  | fault hh hf ha => exact of_le (k := k) (.fault (n := k) hh hf ha) (Nat.le_succ k)

/-! ### What follows for the states of a run -/

/-- Behind a step that is not the end, the run goes on. -/
theorem tail (h : Runs W m out Q (n + 1) j s) (hQ : ¬Q j s) (hs : m.Step s t) :
    Runs W m out Q n (j + W.counts s) t := by
  cases h with
  | done h => exact absurd h hQ
  | step _ hs' h =>
    obtain rfl := hs.det hs'
    exact h
  | fault _ hf _ => exact absurd (.fail hf) hs.not_ends

/-- A state of a run whose ends have no step behind them. -/
theorem reach (hQ : ∀ {j s t}, Q j s → ¬m.Step s t) (hs : m.Steps k s t) :
    ∀ {n j : Nat}, Runs W m True Q (n + k) j s → ∃ j', Runs W m True Q n j' t := by
  induction hs with
  | refl s => exact fun h => ⟨_, h⟩
  | head hst _ ih => exact fun h => ih (h.tail (fun h => hQ h hst) hst)

/-- A run comes to its end, to a fault that is allowed, or it takes all its steps. -/
theorem cases (h : Runs W m out Q n j s) :
    (∃ k ≤ n, ∃ j' t, m.Steps k s t ∧ Q j' t) ∨
    (∃ k < n, ∃ t f, m.Steps k s t ∧ m.Fails t f ∧ W.allows f) ∨ out ∧ ∃ t, m.Steps n s t := by
  induction h with
  | done h => exact .inl ⟨0, Nat.zero_le _, _, _, .refl _, h⟩
  | out h => exact .inr (.inr ⟨h, _, .refl _⟩)
  | fault _ hf ha => exact .inr (.inl ⟨0, Nat.succ_pos _, _, _, .refl _, hf, ha⟩)
  | step _ hs _ ih =>
    rcases ih with ⟨k, hk, j', t, ht, hq⟩ | ⟨k, hk, t, f, ht, hf, ha⟩ | ⟨ho, t, ht⟩
    · exact .inl ⟨k + 1, Nat.succ_le_succ hk, j', t, .head hs ht, hq⟩
    · exact .inr (.inl ⟨k + 1, Nat.succ_lt_succ hk, t, f, .head hs ht, hf, ha⟩)
    · exact .inr (.inr ⟨ho, t, .head hs ht⟩)

end Runs

/-! ### One step -/

theorem Runs.goes {op : Op} (ho : m.ops[s.ip]? = some op) (ht : m.take s op = .ok (.state t))
    (hh : W.holds s) (next : Runs W m out Q n (j + W.counts s) t) : Runs W m out Q (n + 1) j s :=
  .step hh ⟨op, ho, ht⟩ next

theorem Runs.fails {op : Op} {f : Fault} (ho : m.ops[s.ip]? = some op)
    (ht : m.take s op = .error f) (hh : W.holds s) (hf : W.allows f) :
    Runs W m out Q (n + 1) j s :=
  .fault hh ⟨op, ho, ht⟩ hf

/-- An instruction that puts a value onto the stack. -/
theorem Runs.pushes {op : Op} {v : Value} (ho : m.ops[s.ip]? = some op)
    (ht : m.take s op = Next.state <$> m.push t v) (hh : W.holds s)
    (hf : W.allows (.stackOverflow m.maxStack))
    (next : Runs W m out Q n (j + W.counts s) { t with stack := t.stack.push v }) :
    Runs W m out Q (n + 1) j s := by
  by_cases hroom : t.stack.size < m.maxStack
  · exact .goes ho (by rw [ht, push, if_pos hroom]; rfl) hh next
  · exact .fails ho (by rw [ht, push, if_neg hroom]; rfl) hh hf

end Machine

end Labyrinth
