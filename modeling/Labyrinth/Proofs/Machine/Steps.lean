import Labyrinth.Machine.Run

/-!
# Steps of a run

`Steps m n s t`: the machine goes from `s` to `t` in `n` steps. `Ends m s r`: there is no step
behind `s`, and a run that comes to it has the result `r`. A run ends this way, or it takes all the
steps it may (`runFrom_cases`).
-/

namespace Labyrinth

namespace Machine

/-- One step that leads to another state. -/
def Step (m : Machine) (s t : State) : Prop :=
  ∃ op, m.ops[s.ip]? = some op ∧ m.take s op = .ok (.state t)

inductive Steps (m : Machine) : Nat → State → State → Prop
  | refl (s : State) : Steps m 0 s s
  | head {n : Nat} {s t u : State} : m.Step s t → Steps m n t u → Steps m (n + 1) s u

/-- The instruction at which the state stands fails. -/
def Fails (m : Machine) (s : State) (f : Fault) : Prop :=
  ∃ op, m.ops[s.ip]? = some op ∧ m.take s op = .error f

/-- What a run gives that stands at a state without a step behind it. -/
inductive Ends (m : Machine) (s : State) : Except Fault (Option Value × State) → Prop
  | off : m.ops[s.ip]? = none → Ends m s (.ok (none, s))
  | halt {op : Op} {v : Option Value} {t : State} :
      m.ops[s.ip]? = some op → m.take s op = .ok (.halt v t) → Ends m s (.ok (v, t))
  | fail {f : Fault} : m.Fails s f → Ends m s (.error f)

/-- The step from a state, if there is one. -/
def next? (m : Machine) (s : State) : Option State :=
  m.ops[s.ip]?.bind fun op =>
    match m.take s op with
    | .ok (.state t) => some t
    | _ => none

variable {m : Machine} {n k : Nat} {s t u : State}

theorem step_of_next? (h : m.next? s = some t) : m.Step s t := by
  obtain ⟨op, ho, h⟩ := Option.bind_eq_some_iff.mp h
  split at h
  next u hu =>
    cases h
    exact ⟨op, ho, hu⟩
  · cases h

theorem Step.det (h : m.Step s t) (h' : m.Step s u) : t = u := by
  obtain ⟨op, ho, ht⟩ := h
  obtain ⟨op', ho', hu⟩ := h'
  obtain rfl : op = op' := Option.some.inj (ho.symm.trans ho')
  rw [ht] at hu
  cases hu; rfl

/-- A state has a step or an end, and only one of them. -/
theorem Step.not_ends {r : Except Fault (Option Value × State)} (h : m.Step s t) : ¬m.Ends s r := by
  obtain ⟨op, ho, ht⟩ := h
  intro he
  cases he with
  | off hn => cases ho.symm.trans hn
  | halt ho' ht' =>
    obtain rfl := Option.some.inj (ho.symm.trans ho')
    cases ht.symm.trans ht'
  | fail hf =>
    obtain ⟨op', ho', hf⟩ := hf
    obtain rfl := Option.some.inj (ho.symm.trans ho')
    cases ht.symm.trans hf

theorem Ends.det {r r' : Except Fault (Option Value × State)} (h : m.Ends s r) (h' : m.Ends s r') :
    r = r' := by
  cases h with
  | off hn =>
    cases h' with
    | off _ => rfl
    | halt ho _ => cases hn.symm.trans ho
    | fail hf => obtain ⟨op, ho, -⟩ := hf; cases hn.symm.trans ho
  | halt ho ht =>
    cases h' with
    | off hn => cases hn.symm.trans ho
    | halt ho' ht' =>
      obtain rfl := Option.some.inj (ho.symm.trans ho')
      cases ht.symm.trans ht'
      rfl
    | fail hf =>
      obtain ⟨op, ho', hf⟩ := hf
      obtain rfl := Option.some.inj (ho.symm.trans ho')
      cases ht.symm.trans hf
  | fail hf =>
    obtain ⟨op, ho, hf⟩ := hf
    cases h' with
    | off hn => cases hn.symm.trans ho
    | halt ho' ht' =>
      obtain rfl := Option.some.inj (ho.symm.trans ho')
      cases hf.symm.trans ht'
    | fail hf' =>
      obtain ⟨op', ho', hf'⟩ := hf'
      obtain rfl := Option.some.inj (ho.symm.trans ho')
      cases hf.symm.trans hf'
      rfl

namespace Steps

theorem single (h : m.Step s t) : m.Steps 1 s t := .head h (.refl t)

theorem trans (h : m.Steps n s t) (h' : m.Steps k t u) : m.Steps (n + k) s u := by
  induction h with
  | refl s => rwa [Nat.zero_add]
  | head hs _ ih => rw [Nat.add_right_comm]; exact .head hs (ih h')

theorem tail (h : m.Steps n s t) (h' : m.Step t u) : m.Steps (n + 1) s u := h.trans (.single h')

/-- What one step keeps, a run keeps. -/
theorem keeps {P : State → Prop} (step : ∀ s t, P s → m.Step s t → P t) (h : m.Steps n s t)
    (hs : P s) : P t := by
  induction h with
  | refl => exact hs
  | head hst _ ih => exact ih (step _ _ hs hst)

end Steps

/-! ### Runs -/

theorem runFrom_of_none (ho : m.ops[s.ip]? = none) (k : Nat) : m.runFrom k s = .ok (none, s) := by
  unfold runFrom
  rw [ho]

theorem runFrom_zero {op : Op} (ho : m.ops[s.ip]? = some op) :
    m.runFrom 0 s = .error (.stepsExceeded m.maxSteps) := by
  unfold runFrom
  rw [ho]

theorem runFrom_succ {op : Op} (ho : m.ops[s.ip]? = some op) (k : Nat) :
    m.runFrom (k + 1) s = match m.take s op with
      | .error f => .error f
      | .ok (.halt v t) => .ok (v, t)
      | .ok (.state t) => m.runFrom k t := by
  have hrun := runFrom.eq_def m (k + 1) s
  rw [ho] at hrun
  exact hrun

theorem runFrom_of_steps (h : m.Steps n s t) (k : Nat) :
    m.runFrom (k + n) s = m.runFrom k t := by
  induction h with
  | refl => rfl
  | @head n s t u hst _ ih =>
    obtain ⟨op, ho, ht⟩ := hst
    rw [← ih, ← Nat.add_assoc, runFrom_succ ho, ht]

theorem runFrom_of_ends {r : Except Fault (Option Value × State)} (h : m.Ends s r) (k : Nat) :
    m.runFrom (k + 1) s = r := by
  cases h with
  | off ho => exact runFrom_of_none ho _
  | halt ho ht => rw [runFrom_succ ho, ht]
  | fail hf =>
    obtain ⟨op, ho, ht⟩ := hf
    rw [runFrom_succ ho, ht]

/-- More steps than there may be. -/
theorem runFrom_of_lt (h : m.Steps n s t) (hk : k < n) :
    m.runFrom k s = .error (.stepsExceeded m.maxSteps) := by
  induction h generalizing k with
  | refl => exact absurd hk (Nat.not_lt_zero k)
  | head hst _ ih =>
    obtain ⟨op, ho, ht⟩ := hst
    cases k with
    | zero => exact runFrom_zero ho
    | succ k =>
      rw [runFrom_succ ho, ht]
      exact ih (Nat.lt_of_succ_lt_succ hk)

/-- A run that comes to a halt needs one step more than those in front of it. -/
theorem runFrom_of_halts {op : Op} {r : Except Fault (Option Value × State)} (hs : m.Steps n s t)
    (ho : m.ops[t.ip]? = some op) (he : m.Ends t r) (k : Nat) :
    m.runFrom k s = if n < k then r else .error (.stepsExceeded m.maxSteps) := by
  split
  next hlt =>
    obtain ⟨i, rfl⟩ := Nat.exists_eq_add_of_lt hlt
    rw [Nat.add_comm n i, Nat.add_right_comm, runFrom_of_steps hs, runFrom_of_ends he]
  next hge =>
    rcases Nat.lt_or_eq_of_le (Nat.not_lt.mp hge) with hlt | rfl
    · exact runFrom_of_lt hs hlt
    · have hrun := runFrom_of_steps hs 0
      rwa [Nat.zero_add, runFrom_zero ho] at hrun

/-- A run that comes to a halt or a fault gives that, or it takes all the steps it may. -/
theorem runFrom_of_steps_ends {r : Except Fault (Option Value × State)} (h : m.Steps n s t)
    (he : m.Ends t r) (k : Nat) :
    m.runFrom k s = r ∨ k ≤ n ∧ m.runFrom k s = .error (.stepsExceeded m.maxSteps) := by
  rcases Nat.lt_trichotomy n k with hk | rfl | hk
  · obtain ⟨i, rfl⟩ := Nat.exists_eq_add_of_lt hk
    left
    rw [Nat.add_comm n i, Nat.add_right_comm, runFrom_of_steps h, runFrom_of_ends he]
  · have hrun := runFrom_of_steps h 0
    rw [Nat.zero_add] at hrun
    rw [hrun]
    cases ho : m.ops[t.ip]? with
    | some op => exact .inr ⟨Nat.le_refl _, runFrom_zero ho⟩
    | none => exact .inl ((runFrom_of_none ho 0).trans (Ends.det (.off ho) he))
  · exact .inr ⟨Nat.le_of_lt hk, runFrom_of_lt h hk⟩

theorem runFrom_cases (m : Machine) (k : Nat) (s : State) :
    (∃ n t r, n ≤ k ∧ m.Steps n s t ∧ m.Ends t r ∧ m.runFrom k s = r) ∨
      ∃ t, m.Steps k s t ∧ m.runFrom k s = .error (.stepsExceeded m.maxSteps) := by
  induction k generalizing s with
  | zero =>
    cases ho : m.ops[s.ip]? with
    | none => exact .inl ⟨0, s, _, Nat.le_refl 0, .refl s, .off ho, runFrom_of_none ho 0⟩
    | some op => exact .inr ⟨s, .refl s, runFrom_zero ho⟩
  | succ k ih =>
    cases ho : m.ops[s.ip]? with
    | none => exact .inl ⟨0, s, _, Nat.zero_le _, .refl s, .off ho, runFrom_of_none ho _⟩
    | some op =>
      rw [runFrom_succ ho]
      cases ht : m.take s op with
      | error f => exact .inl ⟨0, s, _, Nat.zero_le _, .refl s, .fail ⟨op, ho, ht⟩, rfl⟩
      | ok next =>
        cases next with
        | halt v t => exact .inl ⟨0, s, _, Nat.zero_le _, .refl s, .halt ho ht, rfl⟩
        | state t =>
          have hst : m.Step s t := ⟨op, ho, ht⟩
          rcases ih t with ⟨n, u, r, hn, hs, he, hr⟩ | ⟨u, hs, hr⟩
          · exact .inl ⟨n + 1, u, r, Nat.succ_le_succ hn, .head hst hs, he, hr⟩
          · exact .inr ⟨u, .head hst hs, hr⟩

theorem startAgent_eq_error {maze : Maze} {settings : Settings} {f : Fault}
    (h : startAgent maze settings = .error f) :
    (∃ pose, settings.start = some pose ∧ Heading.ofStep? pose.dirX pose.dirY = none ∧
        f = .type (.startHeading pose.dirX pose.dirY)) ∨
      f = .noStartCell ∨ ∃ x y, f = .outOfBounds x y := by
  -- Once there is an agent, only its place can be wrong.
  have hplace {agent : Agent} (h : (if maze.contains agent.x.toInt agent.y.toInt then pure agent
      else throw (.outOfBounds agent.x agent.y) : Except Fault Agent) = .error f) :
      ∃ x y, f = .outOfBounds x y := by
    split at h
    · cases h
    · cases h; exact ⟨_, _, rfl⟩
  unfold startAgent at h
  cases hs : settings.start with
  | some pose =>
    rw [hs] at h
    cases hd : Heading.ofStep? pose.dirX pose.dirY with
    | none =>
      simp only [hd] at h
      cases h
      exact .inl ⟨pose, rfl, hd, rfl⟩
    | some heading =>
      simp only [hd] at h
      exact .inr (.inr (hplace h))
  | none =>
    rw [hs] at h
    cases hd : maze.find? .start with
    | none =>
      simp only [hd] at h
      cases h
      exact .inr (.inl rfl)
    | some place =>
      simp only [hd] at h
      exact .inr (.inr (hplace h))

theorem load_eq_error {code : Code} {maze : Maze} {settings : Settings} {f : Fault}
    (h : load code maze settings = .error f) :
    code.entry? "main" = none ∧ f = .missingMain ∨ startAgent maze settings = .error f := by
  unfold load at h
  cases he : code.entry? "main" with
  | none =>
    simp only [he] at h
    cases h
    exact .inl ⟨rfl, rfl⟩
  | some ip =>
    simp only [he] at h
    cases ha : startAgent maze settings with
    | error g => rw [ha] at h; cases h; exact .inr rfl
    | ok agent => rw [ha] at h; cases h

/-- The machine and the first state of a code are fixed by the place of `main` and the agent. -/
theorem load_eq_ok {code : Code} {maze : Maze} {settings : Settings}
    (h : load code maze settings = .ok (m, s)) :
    ∃ agent, startAgent maze settings = .ok agent ∧ code.entry? "main" = some s.ip ∧
      m = ⟨code.link, settings.maxSteps.toNat, settings.maxStack.toNat⟩ ∧
      s.stack = .empty ∧ s.frames = .empty ∧ s.toWorld = ⟨.empty, maze, agent, #[agent], ""⟩ := by
  unfold load at h
  cases he : code.entry? "main" with
  | none => simp [he] at h
  | some ip =>
    cases ha : startAgent maze settings with
    | error f => simp [he, ha, bind, Except.bind] at h
    | ok agent =>
      simp only [he, ha, bind, Except.bind, pure, Except.pure, Except.ok.injEq,
        Prod.mk.injEq] at h
      obtain ⟨rfl, rfl⟩ := h
      exact ⟨agent, rfl, rfl, rfl, rfl, rfl, rfl⟩

end Machine

theorem Builtin.find?_of_mem : ∀ b ∈ table, find? b.name = some b := by decide

namespace Code

open Machine

variable {code : Code} {maze : Maze} {settings : Settings} {m : Machine} {s₀ s : State}

theorem getElem?_link {a : Nat} {op : Op} (h : code.link[a]? = some op) :
    ∃ i, code[a]? = some i ∧ op = Op.ofInstruction code i := by
  rw [link, List.getElem?_toArray, List.getElem?_map, Option.map_eq_some_iff] at h
  obtain ⟨i, hi, rfl⟩ := h
  exact ⟨i, hi, rfl⟩

theorem target_action (code : Code) {b : Builtin} {action : Action} (hb : b ∈ Builtin.table)
    (ha : b.action = some action) : code.target b.name = .action action := by
  simp only [target, Builtin.find?_of_mem b hb, Option.bind_some, ha]

theorem target_function {name : String} {entry : Nat} (hn : Builtin.find? name = none)
    (he : code.entry? name = some entry) : code.target name = .address entry := by
  simp only [target, hn, Option.bind_none, he]

/-- Only the name of a built-in is linked to what it does. -/
theorem exists_builtin_of_target {name : String} {action : Action}
    (h : code.target name = .action action) :
    ∃ b ∈ Builtin.table, b.name = name ∧ b.action = some action := by
  unfold target at h
  split at h
  next a ha =>
    cases h
    obtain ⟨b, hb, ha⟩ := Option.bind_eq_some_iff.mp ha
    have hname := List.find?_some hb
    exact ⟨b, List.mem_of_find?_eq_some hb, of_decide_eq_true hname, ha⟩
  · split at h <;> cases h

/-- A state that a run of a code comes to. -/
def Reaches (code : Code) (maze : Maze) (settings : Settings) (m : Machine) (s : State) : Prop :=
  ∃ s₀ n, load code maze settings = .ok (m, s₀) ∧ m.Steps n s₀ s

theorem run_eq_of_load (h : load code maze settings = .ok (m, s₀)) :
    code.run maze settings =
      (m.runFrom m.maxSteps s₀).map fun (result, s) => s.outcome result := by
  simp only [run, h, bind, Except.bind, Except.map, pure, Except.pure]

theorem run_eq_error_of_load {f : Fault} (h : load code maze settings = .error f) :
    code.run maze settings = .error f := by
  simp only [run, h, bind, Except.bind]

/-- A run that starts comes to a state without a step behind it, or takes all its steps. -/
theorem run_cases (h : load code maze settings = .ok (m, s₀)) :
    (∃ n s r, n ≤ m.maxSteps ∧ m.Steps n s₀ s ∧ m.Ends s r ∧
      code.run maze settings = r.map fun (result, s) => s.outcome result) ∨
    ∃ s, m.Steps m.maxSteps s₀ s ∧ code.run maze settings = .error (.stepsExceeded m.maxSteps) := by
  rw [run_eq_of_load h]
  rcases runFrom_cases m m.maxSteps s₀ with ⟨n, s, r, hn, hs, he, hr⟩ | ⟨s, hs, hr⟩
  · exact .inl ⟨n, s, r, hn, hs, he, by rw [hr]⟩
  · exact .inr ⟨s, hs, by rw [hr]; rfl⟩

theorem run_eq_error {f : Fault} (h : code.run maze settings = .error f) :
    load code maze settings = .error f ∨
      (∃ m s, code.Reaches maze settings m s ∧ m.Fails s f) ∨ ∃ limit, f = .stepsExceeded limit := by
  cases hl : load code maze settings with
  | error g =>
    rw [run_eq_error_of_load hl] at h
    cases h
    exact .inl rfl
  | ok r =>
    obtain ⟨m, s₀⟩ := r
    rcases run_cases hl with ⟨n, s, r, -, hs, he, hr⟩ | ⟨s, -, hr⟩
    · rw [h] at hr
      cases r with
      | ok r => cases hr
      | error g =>
        cases hr
        cases he with
        | fail hf => exact .inr (.inl ⟨m, s, ⟨s₀, n, hl, hs⟩, hf⟩)
    · rw [h] at hr
      cases hr
      exact .inr (.inr ⟨_, rfl⟩)

theorem run_eq_ok {o : Outcome} (h : code.run maze settings = .ok o) :
    ∃ m s v t, code.Reaches maze settings m s ∧ m.Ends s (.ok (v, t)) ∧ o = t.outcome v := by
  cases hl : load code maze settings with
  | error g => rw [run_eq_error_of_load hl] at h; cases h
  | ok r =>
    obtain ⟨m, s₀⟩ := r
    rcases run_cases hl with ⟨n, s, r, -, hs, he, hr⟩ | ⟨s, -, hr⟩
    · rw [h] at hr
      cases r with
      | error g => cases hr
      | ok r => cases hr; exact ⟨m, s, r.1, r.2, ⟨s₀, n, hl, hs⟩, he, rfl⟩
    · rw [h] at hr
      cases hr

end Code

end Labyrinth
