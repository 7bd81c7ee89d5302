import Labyrinth.Proofs.Grounded
import Labyrinth.Proofs.Machine.Log

/-!
# Limits of a run

The limits of a machine say when its run is given up, and nothing else. With more room on the stacks an
instruction leads to the same, unless there was no room (`Machine.loosens_take`); and the limit on the
steps only says how far a run may go (`Machine.Ran.runFrom_eq`).
-/

namespace Labyrinth

namespace Machine

variable {α β : Type} {m m' : Machine} {s t : State} {k k' : Nat} {ds : List Dispatch}

/-! ### More room -/

/-- The results are the same, unless the first is that a stack is full. -/
def Loosens (r r' : Except Fault α) : Prop :=
  r' = r ∨ ∃ f, r = .error f ∧ f.IsOverflow

namespace Loosens

theorem refl (r : Except Fault α) : Loosens r r := .inl rfl

theorem bind {x : Except Fault α} {g g' : α → Except Fault β} (h : ∀ a, Loosens (g a) (g' a)) :
    Loosens (x >>= g) (x >>= g') := by
  cases x with
  | error f => exact refl _
  | ok a => exact h a

end Loosens

theorem loosens_push (hroom : m.maxStack ≤ m'.maxStack) (s : State) (v : Value) :
    Loosens (Next.state <$> m.push s v) (Next.state <$> m'.push s v) := by
  unfold push
  by_cases hlt : s.stack.size < m.maxStack
  · rw [if_pos hlt, if_pos (Nat.lt_of_lt_of_le hlt hroom)]
    exact .refl _
  · rw [if_neg hlt]
    exact .inr ⟨_, rfl, trivial⟩

theorem loosens_act (hroom : m.maxStack ≤ m'.maxStack) (ip : Nat) (s : State) (action : Action) :
    Loosens (Next.state <$> m.act ip s action) (Next.state <$> m'.act ip s action) := by
  cases action with
  | moveForward =>
    simp only [act, map_bind]
    refine .bind fun c => ?_
    split
    · exact loosens_push hroom s _
    · exact loosens_push hroom { s with toWorld := s.forward } _
  | isWall =>
    simp only [act, map_bind]
    exact .bind fun c => loosens_push hroom s _
  | completed => exact loosens_push hroom s _
  | turnLeft | turnRight | teleport | print => exact .refl _

/-- With more room, an instruction leads to the same, unless there was no room. -/
theorem loosens_take (hroom : m.maxStack ≤ m'.maxStack) (s : State) (op : Op) :
    Loosens (m.take s op) (m'.take s op) := by
  rw [take_eq, take_eq]
  generalize behind s = u
  cases op with
  | push v => exact loosens_push hroom u v
  | load name =>
    rw [step, step]
    split
    · exact loosens_push hroom u _
    · exact .refl _
  | binary op =>
    refine .bind ?_
    rintro ⟨b, u⟩
    refine .bind ?_
    rintro ⟨a, u⟩
    dsimp only
    split
    · exact loosens_push hroom u _
    · exact .refl _
  | neg | not | toFloat => exact .bind fun top => loosens_push hroom top.2 _
  | call target name =>
    cases target with
    | action action => exact loosens_act hroom _ u action
    | unresolved => exact .refl _
    | address entry =>
      rw [step, step]
      by_cases hlt : u.frames.size < m.maxStack
      · rw [if_pos hlt, if_pos (Nat.lt_of_lt_of_le hlt hroom)]
        exact .refl _
      · rw [if_neg hlt]
        exact .inr ⟨_, rfl, trivial⟩
  | store _ | skip | jump _ _ | jumpIfFalse _ _ | ret | retVoid => exact .refl _

/-! ### Counting -/

/-- Wherever an instruction leads, `n` instructions have been taken. -/
def Counts (n : Nat) : Except Fault Next → Prop
  | .ok (.state t) | .ok (.halt _ t) => t.steps = n
  | .error _ => True

theorem carries_counts (m : Machine) (n : Nat) : m.Carries (fun s => s.steps = n) (Counts n) where
  state := id
  error := fun _ => trivial
  push := by
    intro s hs v
    unfold push
    split
    · exact hs
    · exact trivial
  pop := fun hs _ => hs
  world := fun hs _ => hs

/-- Every instruction counts as one. -/
theorem counts_take (m : Machine) (s : State) (op : Op) : Counts (s.steps + 1) (m.take s op) := by
  refine (carries_counts m _).step id ?_ ?_ (s := behind s) rfl s.ip op
  · intro t v ht
    unfold back
    split <;> exact ht
  · intro t entry ht
    split
    · exact ht
    · exact trivial

theorem Path.steps_eq (h : m.Path s ds t) : t.steps = s.steps + ds.length := by
  induction h with
  | nil s => rfl
  | @cons op s t u ds _ ht _ ih =>
    have hcounts := counts_take m s op
    rw [ht] at hcounts
    rw [ih, List.length_cons, Nat.add_comm ds.length, ← Nat.add_assoc]
    exact congrArg (· + ds.length) hcounts

/-- A run that finishes has counted the instructions that it took. -/
theorem Ran.steps_eq {v : Option Value} (h : m.Ran k s ds (.ok (v, t))) :
    t.steps = s.steps + ds.length := by
  rcases h with ⟨hpath, -, -⟩ | @⟨ds, u, _, op, _, hpath, -, ht, -⟩
  · exact hpath.steps_eq
  · have hcounts := counts_take m u op
    rw [ht, hpath.steps_eq] at hcounts
    rw [List.length_append]
    exact hcounts

/-! ### Runs with other limits -/

/-- With more room and more steps, a run gives the same, unless it reached a limit. -/
theorem runFrom_eq_or_limit (m m' : Machine) (hops : m'.ops = m.ops)
    (hroom : m.maxStack ≤ m'.maxStack) (hk : k ≤ k') (s : State) : m'.runFrom k' s = m.runFrom k s ∨
      ∃ f, m.runFrom k s = .error f ∧ (f.IsOverflow ∨ ∃ limit, f = .stepsExceeded limit) := by
  induction k generalizing k' s with
  | zero =>
    cases ho : m.ops[s.ip]? with
    | none => exact .inl (by rw [runFrom_of_none ho, runFrom_of_none (hops ▸ ho)])
    | some op => exact .inr ⟨_, runFrom_zero ho, .inr ⟨_, rfl⟩⟩
  | succ k ih =>
    obtain ⟨k', rfl⟩ : ∃ i, k' = i + 1 := ⟨k' - 1, by omega⟩
    cases ho : m.ops[s.ip]? with
    | none => exact .inl (by rw [runFrom_of_none ho, runFrom_of_none (hops ▸ ho)])
    | some op =>
      rw [runFrom_succ ho, runFrom_succ (m := m') (hops ▸ ho)]
      rcases loosens_take hroom s op with htake | ⟨f, htake, hf⟩
      · rw [htake]
        cases m.take s op with
        | error f => exact .inl rfl
        | ok next =>
          cases next with
          | halt v t => exact .inl rfl
          | state t => exact ih (Nat.le_of_succ_le_succ hk) t
      · rw [htake]
        exact .inr ⟨f, rfl, .inl hf⟩

/-- The limit on the steps has nothing to do with what an instruction does. -/
theorem take_limit (m : Machine) (limit : Nat) (s : State) (op : Op) :
    take { m with maxSteps := limit } s op = m.take s op := by
  rw [take_eq, take_eq]
  cases op with
  | call target name =>
    cases target with
    | action action => cases action <;> rfl
    | _ => rfl
  | _ => rfl

theorem Path.with_limit (h : m.Path s ds t) (limit : Nat) : Path { m with maxSteps := limit } s ds t := by
  induction h with
  | nil s => exact .nil s
  | cons ho ht _ ih => exact .cons ho ((take_limit m limit _ _).trans ht) ih

theorem Ran.with_limit {v : Option Value} (h : m.Ran k s ds (.ok (v, t))) (limit : Nat) :
    Ran { m with maxSteps := limit } k s ds (.ok (v, t)) := by
  rcases h with ⟨hpath, ho, hk⟩ | ⟨hpath, ho, ht, hk⟩
  · exact .off (hpath.with_limit limit) ho hk
  · exact .halt (hpath.with_limit limit) ho ((take_limit m limit _ _).trans ht) hk

/-- A run that finishes does so whenever it may take its instructions, and only then. -/
theorem Ran.runFrom_eq {v : Option Value} (h : m.Ran k s ds (.ok (v, t))) (n : Nat) :
    m.runFrom n s =
      if ds.length ≤ n then .ok (v, t) else .error (.stepsExceeded m.maxSteps) := by
  rcases h with ⟨hpath, ho, -⟩ | @⟨ds, u, _, op, _, hpath, ho, ht, -⟩
  · split
    · next hle =>
      obtain ⟨i, rfl⟩ := Nat.exists_eq_add_of_le hle
      rw [Nat.add_comm, runFrom_of_steps hpath.steps, runFrom_of_none ho]
    · next hlt => exact runFrom_of_lt hpath.steps (Nat.lt_of_not_le hlt)
  · rw [List.length_append, List.length_singleton]
    split
    · next hle =>
      obtain ⟨i, rfl⟩ := Nat.exists_eq_add_of_le hle
      rw [Nat.add_comm, ← Nat.add_assoc, Nat.add_right_comm, runFrom_of_steps hpath.steps,
        runFrom_of_ends (.halt ho ht)]
    · next hlt =>
      rcases Nat.lt_or_ge n ds.length with hn | hn
      · exact runFrom_of_lt hpath.steps hn
      · obtain rfl : n = ds.length := by omega
        have hrun := runFrom_of_steps hpath.steps 0
        rw [Nat.zero_add] at hrun
        rw [hrun, runFrom_zero ho]

end Machine

namespace Code

open Machine

variable {code : Code} {maze : Maze} {settings settings' : Settings} {m : Machine} {s₀ : State}
  {o : Outcome}

/-- Whether a run starts, and in which state, does not depend on its limits. -/
theorem load_limits (code : Code) (maze : Maze) (hstart : settings'.start = settings.start) :
    load code maze settings' = (load code maze settings).map fun (m, s) =>
      ({ m with maxSteps := settings'.maxSteps.toNat, maxStack := settings'.maxStack.toNat }, s) := by
  have hagent : startAgent maze settings' = startAgent maze settings := by
    unfold startAgent
    rw [hstart]
  unfold load
  rw [hagent]
  cases code.entry? "main" with
  | none => rfl
  | some ip =>
    cases startAgent maze settings with
    | error f => rfl
    | ok agent => rfl

theorem steps_of_load (hload : load code maze settings = .ok (m, s₀)) : s₀.steps = 0 := by
  unfold load at hload
  split at hload
  · cases hload
  · obtain ⟨agent, -, hload⟩ := Except.bind_eq_ok.mp hload
    cases hload
    rfl

/-- With higher limits a run gives the same, unless it reached a limit. -/
theorem run_eq_or_limit (hstart : settings'.start = settings.start)
    (hsteps : settings.maxSteps ≤ settings'.maxSteps) (hstack : settings.maxStack ≤ settings'.maxStack) :
    code.run maze settings' = code.run maze settings ∨
      ∃ f, code.run maze settings = .error f ∧ (f.IsOverflow ∨ ∃ limit, f = .stepsExceeded limit) := by
  have hload' := load_limits code maze hstart
  cases hload : load code maze settings with
  | error f =>
    rw [hload] at hload'
    rw [run_eq_error_of_load hload, run_eq_error_of_load hload']
    exact .inl rfl
  | ok r =>
    obtain ⟨m, s₀⟩ := r
    rw [hload] at hload'
    rw [run_eq_of_load hload, run_eq_of_load hload']
    obtain ⟨_, -, -, rfl, -⟩ := load_eq_ok hload
    rcases runFrom_eq_or_limit ⟨code.link, settings.maxSteps.toNat, settings.maxStack.toNat⟩
      ⟨code.link, settings'.maxSteps.toNat, settings'.maxStack.toNat⟩ rfl
      (UInt64.le_iff_toNat_le.mp hstack) (UInt64.le_iff_toNat_le.mp hsteps) s₀ with h | ⟨f, h, hf⟩
    · exact .inl (by rw [h])
    · exact .inr ⟨f, by rw [h]; rfl, hf⟩

/-- A run counts the instructions that it takes, and finishes with every limit that lets it take them. -/
theorem run_limit_eq (hrun : code.run maze settings = .ok o) :
    o.steps = (code.log maze settings).length ∧ ∀ limit : UInt64,
      code.run maze { settings with maxSteps := limit } =
        if o.steps ≤ limit.toNat then .ok o else .error (.stepsExceeded limit.toNat) := by
  cases hload : load code maze settings with
  | error f =>
    rw [run_eq_error_of_load hload] at hrun
    cases hrun
  | ok r =>
    obtain ⟨m, s₀⟩ := r
    obtain ⟨r, hran, hr⟩ := ran_of_load hload
    rw [hrun] at hr
    cases r with
    | error f => cases hr
    | ok r =>
      obtain ⟨v, t⟩ := r
      cases hr
      have hsteps : (t.outcome v).steps = (code.log maze settings).length := by
        show t.steps = _
        rw [hran.steps_eq, steps_of_load hload, Nat.zero_add]
      refine ⟨hsteps, fun limit => ?_⟩
      have hstart : { settings with maxSteps := limit }.start = settings.start := rfl
      have hload' := load_limits code maze hstart
      rw [hload] at hload'
      obtain ⟨_, -, -, rfl, -⟩ := load_eq_ok hload
      have hrun := (hran.with_limit limit.toNat).runFrom_eq limit.toNat
      rw [run_eq_of_load hload', hsteps]
      refine (congrArg _ hrun).trans ?_
      split <;> rfl

/-- The limits of a run only say when it is given up. What it gives without reaching one, it gives with
higher limits as well; it finishes exactly with the limits on its steps that are not below their number;
and it always ends, by taking no more instructions than it may. -/
theorem limits_transparent (code : Code) (maze : Maze) (settings : Settings) :
    (∀ settings' : Settings, settings'.start = settings.start →
      settings.maxSteps ≤ settings'.maxSteps → settings.maxStack ≤ settings'.maxStack →
      (∀ limit, code.run maze settings ≠ .error (.stepsExceeded limit)) →
      (∀ limit, code.run maze settings ≠ .error (.stackOverflow limit)) →
      code.run maze settings' = code.run maze settings) ∧
    (∀ o, code.run maze settings = .ok o →
      o.steps = (code.log maze settings).length ∧ ∀ limit : UInt64,
        code.run maze { settings with maxSteps := limit } =
          if o.steps ≤ limit.toNat then .ok o else .error (.stepsExceeded limit.toNat)) ∧
    (code.log maze settings).length ≤ settings.maxSteps.toNat ∧
    ∀ m s₀, load code maze settings = .ok (m, s₀) → ∃ r,
      m.Ran settings.maxSteps.toNat s₀ (code.log maze settings) r ∧
        code.run maze settings = r.map fun (result, s) => s.outcome result := by
  have hends m s₀ (hload : load code maze settings = .ok (m, s₀)) : ∃ r,
      m.Ran settings.maxSteps.toNat s₀ (code.log maze settings) r ∧
        code.run maze settings = r.map fun (result, s) => s.outcome result := by
    have hran := ran_of_load hload
    obtain ⟨_, -, -, rfl, -⟩ := load_eq_ok hload
    exact hran
  refine ⟨?_, fun o hrun => run_limit_eq hrun, ?_, hends⟩
  · intro settings' hstart hsteps hstack hno hno'
    rcases run_eq_or_limit hstart hsteps hstack with h | ⟨f, h, hf | ⟨limit, rfl⟩⟩
    · exact h
    · cases f with
      | stackOverflow limit => exact absurd h (hno' limit)
      | _ => cases hf
    · exact absurd h (hno limit)
  · cases hload : load code maze settings with
    | error f =>
      rw [log, hload]
      exact Nat.zero_le _
    | ok r =>
      obtain ⟨m, s₀⟩ := r
      obtain ⟨r, hran, -⟩ := hends m s₀ hload
      exact hran.length_le

theorem limits_transparent_turning : ∃ o,
    turning.run .sample { maxSteps := 9, maxStack := 1 } = .ok o ∧ turning.run .sample {} = .ok o ∧
    turning.run .sample { maxSteps := 5, maxStack := 1 } = .ok o ∧
    turning.run .sample { maxSteps := 4, maxStack := 1 } = .error (.stepsExceeded 4) := by
  obtain ⟨o, hrun, hsteps⟩ := Except.any_toOption (q := fun o => o.steps = 5)
    (x := turning.run .sample { maxSteps := 9, maxStack := 1 }) (by decide)
  obtain ⟨hmore, hlimit, -⟩ := limits_transparent turning .sample { maxSteps := 9, maxStack := 1 }
  have hsame := hmore {} rfl (by decide) (by decide) (by rw [hrun]; nofun) (by rw [hrun]; nofun)
  obtain ⟨-, hlimit⟩ := hlimit o hrun
  have hfive := hlimit 5
  have hfour := hlimit 4
  rw [of_decide_eq_true hsteps] at hfive hfour
  exact ⟨o, hrun, hsame.trans hrun, hfive, hfour⟩

end Code

end Labyrinth
