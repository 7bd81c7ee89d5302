import Labyrinth.Proofs.Machine.Activations
import Labyrinth.Proofs.Machine.Effect

/-!
# The instructions that a run takes

`Machine.log` lists them, each with the states in front of it and behind it. As long as a run goes on, one
leads to the next (`Machine.Path`); the last may end the run (`Machine.Ran`). What holds of a run is then
shown by induction on its path.
-/

namespace Labyrinth

/-- An instruction that a run takes. -/
structure Dispatch where
  op : Op
  before : State
  /-- The state behind the instruction, unless the run ends with it. -/
  after? : Option State

namespace Dispatch

/-- Whether the instruction is a call of a built-in that does something. -/
def acts (action : Action) (d : Dispatch) : Bool :=
  match d.op with
  | .call (.action a) _ => a = action
  | _ => false

/-- Whether the instruction leaves an integer on the top of the stack. -/
def leaves (n : Int64) (d : Dispatch) : Bool :=
  match d.after?.bind (·.stack.top?) with
  | some (.int k) => k = n
  | _ => false

end Dispatch

namespace Machine

/-- The instructions that a run of at most `budget` steps takes, in their order. -/
def log (m : Machine) : Nat → State → List Dispatch
  | 0, _ => []
  | budget + 1, s =>
    match m.ops[s.ip]? with
    | none => []
    | some op =>
      match m.take s op with
      | .ok (.state t) => ⟨op, s, some t⟩ :: log m budget t
      | _ => [⟨op, s, none⟩]

/-- From `s` the machine comes to `t` by the instructions of a list. -/
inductive Path (m : Machine) : State → List Dispatch → State → Prop
  | nil (s : State) : Path m s [] s
  | cons {op : Op} {s t u : State} {ds : List Dispatch} :
      m.ops[s.ip]? = some op → m.take s op = .ok (.state t) → Path m t ds u →
      Path m s (⟨op, s, some t⟩ :: ds) u

/-- A run of at most `budget` steps takes the instructions of a list and gives a result. The last of the
instructions ends it, or it goes on up to a place without one, or up to one that it may not take. -/
inductive Ran (m : Machine) (budget : Nat) (s : State) :
    List Dispatch → Except Fault (Option Value × State) → Prop
  | off {ds : List Dispatch} {t : State} : m.Path s ds t → m.ops[t.ip]? = none → ds.length ≤ budget →
      Ran m budget s ds (.ok (none, t))
  | halt {ds : List Dispatch} {t u : State} {op : Op} {v : Option Value} : m.Path s ds t →
      m.ops[t.ip]? = some op → m.take t op = .ok (.halt v u) → ds.length < budget →
      Ran m budget s (ds ++ [⟨op, t, none⟩]) (.ok (v, u))
  | fail {ds : List Dispatch} {t : State} {op : Op} {f : Fault} : m.Path s ds t →
      m.ops[t.ip]? = some op → m.take t op = .error f → ds.length < budget →
      Ran m budget s (ds ++ [⟨op, t, none⟩]) (.error f)
  | cut {ds : List Dispatch} {t : State} {op : Op} : m.Path s ds t → m.ops[t.ip]? = some op →
      ds.length = budget → Ran m budget s ds (.error (.stepsExceeded m.maxSteps))

variable {m : Machine} {s t u : State} {op : Op} {d : Dispatch} {ds : List Dispatch} {k : Nat}
  {v : Option Value} {r : Except Fault (Option Value × State)}

theorem log_of_none (ho : m.ops[s.ip]? = none) (k : Nat) : m.log k s = [] := by
  cases k with
  | zero => rfl
  | succ k => rw [log, ho]

theorem log_succ (ho : m.ops[s.ip]? = some op) (k : Nat) :
    m.log (k + 1) s = match m.take s op with
      | .ok (.state t) => ⟨op, s, some t⟩ :: m.log k t
      | _ => [⟨op, s, none⟩] := by
  rw [log, ho]

/-! ### Paths -/

namespace Path

theorem steps (h : m.Path s ds t) : m.Steps ds.length s t := by
  induction h with
  | nil s => exact .refl s
  | cons ho ht _ ih => exact .head ⟨_, ho, ht⟩ ih

/-- A path goes through each of its instructions. -/
theorem split (h : m.Path s ds u) (hd : d ∈ ds) :
    ∃ ds₁ ds₂ t, m.Path s ds₁ d.before ∧ m.ops[d.before.ip]? = some d.op ∧ d.after? = some t ∧
      m.take d.before d.op = .ok (.state t) ∧ m.Path t ds₂ u := by
  induction h with
  | nil => cases hd
  | @cons op s t u ds ho ht hpath ih =>
    rcases List.mem_cons.mp hd with rfl | hd
    · exact ⟨[], ds, t, .nil s, ho, rfl, ht, hpath⟩
    · obtain ⟨ds₁, ds₂, t', h₁, hd⟩ := ih hd
      exact ⟨_ :: ds₁, ds₂, t', .cons ho ht h₁, hd⟩

theorem take_of_mem (h : m.Path s ds u) (hd : d ∈ ds) (ha : d.after? = some t) :
    m.take d.before d.op = .ok (.state t) := by
  obtain ⟨-, -, t', -, -, ha', ht, -⟩ := h.split hd
  obtain rfl : t = t' := Option.some.inj (ha.symm.trans ha')
  exact ht

end Path

namespace Ran

/-- An instruction in front of a run. -/
theorem cons (ho : m.ops[s.ip]? = some op) (ht : m.take s op = .ok (.state t)) (h : m.Ran k t ds r) :
    m.Ran (k + 1) s (⟨op, s, some t⟩ :: ds) r := by
  rcases h with
    ⟨hpath, ho', hk⟩ | ⟨hpath, ho', ht', hk⟩ | ⟨hpath, ho', ht', hk⟩ | ⟨hpath, ho', hk⟩
  · exact .off (.cons ho ht hpath) ho' (Nat.succ_le_succ hk)
  · exact .halt (.cons ho ht hpath) ho' ht' (Nat.succ_lt_succ hk)
  · exact .fail (.cons ho ht hpath) ho' ht' (Nat.succ_lt_succ hk)
  · exact .cut (.cons ho ht hpath) ho' (congrArg _ hk)

theorem length_le (h : m.Ran k s ds r) : ds.length ≤ k := by
  rcases h with ⟨-, -, hk⟩ | ⟨-, -, -, hk⟩ | ⟨-, -, -, hk⟩ | ⟨-, -, hk⟩
  · exact hk
  · rwa [List.length_append]
  · rwa [List.length_append]
  · exact Nat.le_of_eq hk

theorem take_of_mem (h : m.Ran k s ds r) (hd : d ∈ ds) (ha : d.after? = some t) :
    m.take d.before d.op = .ok (.state t) := by
  have hlast {ds : List Dispatch} {u : State} {op : Op} (hpath : m.Path s ds u)
      (hd : d ∈ ds ++ [⟨op, u, none⟩]) : m.take d.before d.op = .ok (.state t) := by
    rcases List.mem_append.mp hd with hd | hd
    · exact hpath.take_of_mem hd ha
    · obtain rfl := List.mem_singleton.mp hd
      cases ha
  rcases h with ⟨hpath, -, -⟩ | ⟨hpath, -, -, -⟩ | ⟨hpath, -, -, -⟩ | ⟨hpath, -, -⟩
  · exact hpath.take_of_mem hd ha
  · exact hlast hpath hd
  · exact hlast hpath hd
  · exact hpath.take_of_mem hd ha

end Ran

/-- Every run takes the instructions of its log. -/
theorem ran (m : Machine) (k : Nat) (s : State) : m.Ran k s (m.log k s) (m.runFrom k s) := by
  induction k generalizing s with
  | zero =>
    cases ho : m.ops[s.ip]? with
    | none => rw [runFrom_of_none ho]; exact .off (.nil s) ho (Nat.le_refl 0)
    | some op => rw [runFrom_zero ho]; exact .cut (.nil s) ho rfl
  | succ k ih =>
    cases ho : m.ops[s.ip]? with
    | none =>
      rw [runFrom_of_none ho, log_of_none ho]
      exact .off (.nil s) ho (Nat.zero_le _)
    | some op =>
      rw [runFrom_succ ho, log_succ ho]
      cases ht : m.take s op with
      | error f => exact .fail (.nil s) ho ht (Nat.succ_pos k)
      | ok next =>
        cases next with
        | halt v t => exact .halt (.nil s) ho ht (Nat.succ_pos k)
        | state t => exact .cons ho ht (ih t)

/-- The instruction that ends a run without a fault is no call. -/
theorem Ends.acts_eq_false (h : m.Ends s (.ok (v, t))) (ho : m.ops[s.ip]? = some op)
    (action : Action) (after? : Option State) : Dispatch.acts action ⟨op, s, after?⟩ = false := by
  rcases h.cases_ok with hn | ⟨-, ⟨hn, -⟩ | ⟨hn, -⟩⟩
  · cases ho.symm.trans hn
  · obtain rfl := Option.some.inj (ho.symm.trans hn)
    rfl
  · obtain rfl := Option.some.inj (ho.symm.trans hn)
    rfl

/-- A run that finishes takes the instructions of a path, and at most one behind it, which leads nowhere
and does nothing to the world. -/
theorem Ran.exists_path (h : m.Ran k s ds (.ok (v, u))) :
    ∃ ds' last t, m.Path s ds' t ∧ m.Ends t (.ok (v, u)) ∧ ds = ds' ++ last ∧
      u.toWorld = t.toWorld ∧ ∀ d ∈ last, d.after? = none ∧ ∀ action, d.acts action = false := by
  have hworld {t : State} (h : m.Ends t (.ok (v, u))) : u.toWorld = t.toWorld := by
    rcases h.eq_or_eq_behind with rfl | rfl <;> rfl
  rcases h with ⟨hpath, ho, -⟩ | ⟨hpath, ho, ht, -⟩
  · exact ⟨ds, [], u, hpath, .off ho, (List.append_nil ds).symm, rfl, List.forall_mem_nil _⟩
  · have hends := Ends.halt ho ht
    refine ⟨_, _, _, hpath, hends, rfl, hworld hends, List.forall_mem_singleton.mpr ⟨rfl, ?_⟩⟩
    exact fun action => hends.acts_eq_false ho action none

end Machine

namespace Code

open Machine

variable {code : Code} {maze : Maze} {settings : Settings} {m : Machine} {s₀ : State} {o : Outcome}

/-- The instructions that the run of a code takes, in their order. -/
def log (code : Code) (maze : Maze) (settings : Settings) : List Dispatch :=
  match load code maze settings with
  | .ok (m, s) => m.log m.maxSteps s
  | .error _ => []

theorem ran_of_load (hload : load code maze settings = .ok (m, s₀)) :
    ∃ r, m.Ran m.maxSteps s₀ (code.log maze settings) r ∧
      code.run maze settings = r.map fun (result, s) => s.outcome result := by
  refine ⟨m.runFrom m.maxSteps s₀, ?_, run_eq_of_load hload⟩
  rw [log, hload]
  exact m.ran m.maxSteps s₀

/-- A finished run has a path, which is its log but for the instruction that ends the run. -/
theorem exists_path (hload : load code maze settings = .ok (m, s₀))
    (hrun : code.run maze settings = .ok o) :
    ∃ ds last t, m.Path s₀ ds t ∧ code.log maze settings = ds ++ last ∧
      (∀ d ∈ last, d.after? = none ∧ ∀ action, d.acts action = false) ∧
      o.trace = t.trace.toList ∧ o.maze = t.maze ∧ o.completed = t.atGoal := by
  obtain ⟨r, hran, hr⟩ := ran_of_load hload
  rw [hrun] at hr
  cases r with
  | error f => cases hr
  | ok r =>
    obtain ⟨v, u⟩ := r
    obtain ⟨ds, last, t, hpath, -, hlog, hworld, hlast⟩ := hran.exists_path
    cases hr
    refine ⟨ds, last, t, hpath, hlog, hlast, ?_, ?_, ?_⟩
    · exact congrArg (fun w : World => w.trace.toList) hworld
    · exact congrArg World.maze hworld
    · exact congrArg World.atGoal hworld

end Code

end Labyrinth
