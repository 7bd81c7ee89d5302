import Labyrinth.Proofs.Discipline.Main

/-!
# Accepted programs do not get stuck

Whatever the maze and the settings, the code of an accepted text finds its labels, its functions and its
variables. It finds its operands too, unless `main` has parameters, which nothing provides.
-/

namespace Labyrinth

open Machine

namespace Regime

/-- Variables in scope are defined, and values may have any form. -/
def safe : Regime where
  typed := False
  defined := True

end Regime

variable {p : Program} {ls : List Line} {maze : Maze} {settings : Settings} {m : Machine} {s s₀ : State}
  {f : Fault}

/-- Functions of one name are one function. -/
theorem Program.Coded.eq_of_name_eq (h : p.Coded ls) {x y : Context × Function}
    (hx : x ∈ p.functions) (hy : y ∈ p.functions) (hname : x.2.name = y.2.name) : x = y := by
  have hnodup : (p.functions.map fun x => x.2.name).Nodup := by
    have hn := (CodedFrom.fresh_heads h).1
    rwa [CodedFrom.heads_eq h] at hn
  exact List.inj_on_of_nodup_map hnodup hx hy hname

/-- A run that starts has a `main`. -/
theorem Program.Coded.exists_main (h : p.Coded ls)
    (hload : load (Line.code ls) maze settings = .ok (m, s₀)) :
    ∃ Γ g, (Γ, g) ∈ p.functions ∧ g.name = "main" := by
  obtain ⟨agent, -, hentry, -⟩ := load_eq_ok hload
  by_contra hmain
  have hnone := h.entry?_eq_none.mpr fun x hx he => hmain ⟨x.1, x.2, hx, he⟩
  cases hentry.symm.trans hnone

/-- The faults of a run at any of its states. -/
theorem Program.Coded.allows_of_fails (h : p.Coded ls) (hsolid : p.Solid)
    (hs : (Line.code ls).Reaches maze settings m s) (hf : m.Fails s f) :
    Regime.safe.Allows f ∨
      f = .stackUnderflow s.ip ∧ ∀ g, .function g ∈ p → g.name = "main" → g.params ≠ [] := by
  obtain ⟨s₀, n, hload, hs⟩ := hs
  obtain ⟨Γ, g, hg, hname⟩ := h.exists_main hload
  by_cases hparams : g.params = []
  · have hgov := Regime.governs_of_load (R := Regime.safe) h hsolid nofun nofun hload
    exact .inl ((hgov.reached hg hname hparams hload hs).allows f hf)
  · have hfails := h.fails_of_params hg hname hparams hload
    refine .inr ⟨?_, fun g' hg' hname' => ?_⟩
    · cases hs with
      | refl => cases (Ends.fail hfails).det (.fail hf); rfl
      | head hst _ => exact absurd (.fail hfails) hst.not_ends
    · obtain ⟨Δ, hg'⟩ := Program.exists_mem_functionsFrom .initial hg'
      cases h.eq_of_name_eq hg hg' (hname.trans hname'.symm)
      exact hparams

namespace Source

variable {source : String} {code : Code}

/-- The faults that a run of accepted code may end with. -/
theorem fault_cases (hp : checked source = .ok p) (hc : compile source = .ok code)
    (h : code.run maze settings = .error f) :
    f = .missingMain ∧ (∀ g, .function g ∈ p → g.name ≠ "main") ∨
      startAgent maze settings = .error f ∨ Regime.safe.Allows f ∨
      ((∃ ip, f = .stackUnderflow ip) ∧ ∀ g, .function g ∈ p → g.name = "main" → g.params ≠ []) ∨
      ∃ limit, f = .stepsExceeded limit := by
  obtain ⟨ls, hls, rfl⟩ := exists_coded hp hc
  rcases Code.run_eq_error h with h | ⟨m, s, hs, hf⟩ | h
  · rcases load_eq_error h with ⟨hn, rfl⟩ | h
    · refine .inl ⟨rfl, fun g hg he => ?_⟩
      obtain ⟨Δ, hg⟩ := Program.exists_mem_functionsFrom .initial hg
      exact hls.entry?_eq_none.mp hn _ hg he
    · exact .inr (.inl h)
  · rcases hls.allows_of_fails (solid_of_checked hp) hs hf with h | ⟨rfl, hg⟩
    · exact .inr (.inr (.inl h))
    · exact .inr (.inr (.inr (.inl ⟨⟨_, rfl⟩, hg⟩)))
  · exact .inr (.inr (.inr (.inr h)))

theorem run_ne_unresolved (hp : checked source = .ok p) (hc : compile source = .ok code)
    (hf : code.run maze settings = .error f) :
    (∀ name, f ≠ .unresolvedLabel name) ∧ (∀ e, f ≠ .unknownInstruction e) ∧
      (∀ name, f ≠ .undefinedVariable name) ∧ ∀ name, f = .unresolvedCall name → name = "next_wall" := by
  rcases fault_cases hp hc hf with ⟨rfl, -⟩ | h | h | ⟨⟨ip, rfl⟩, -⟩ | ⟨limit, rfl⟩
  · exact ⟨nofun, nofun, nofun, nofun⟩
  · rcases startAgent_eq_error h with ⟨pose, -, -, rfl⟩ | rfl | ⟨x, y, rfl⟩ <;>
      exact ⟨nofun, nofun, nofun, nofun⟩
  · refine ⟨?_, ?_, ?_, ?_⟩
    · rintro name rfl
      exact h
    · rintro e rfl
      exact h
    · rintro name rfl
      exact h trivial
    · rintro name rfl
      exact h
  · exact ⟨nofun, nofun, nofun, nofun⟩
  · exact ⟨nofun, nofun, nofun, nofun⟩

theorem run_eq_missingMain_iff (hp : checked source = .ok p) (hc : compile source = .ok code) :
    code.run maze settings = .error .missingMain ↔ ∀ g, .function g ∈ p → g.name ≠ "main" := by
  constructor
  · intro hf
    rcases fault_cases hp hc hf with ⟨-, h⟩ | h | h | ⟨⟨ip, h⟩, -⟩ | ⟨limit, h⟩
    · exact h
    · rcases startAgent_eq_error h with ⟨pose, -, -, h⟩ | h | ⟨x, y, h⟩ <;> cases h
    · exact h.elim
    · cases h
    · cases h
  · intro hmain
    obtain ⟨ls, hls, rfl⟩ := exists_coded hp hc
    have hn := hls.entry?_eq_none.mpr fun x hx he =>
      hmain x.2 (Program.mem_of_mem_functionsFrom hx) he
    refine Code.run_eq_error_of_load ?_
    rw [load, hn]

/-- Operands are there if `main` takes nothing. -/
theorem run_ne_stackUnderflow (hp : checked source = .ok p) (hc : compile source = .ok code)
    {g : Function} (hg : .function g ∈ p) (hname : g.name = "main") (hparams : g.params = []) (ip : Nat) :
    code.run maze settings ≠ .error (.stackUnderflow ip) := by
  intro hf
  rcases fault_cases hp hc hf with ⟨h, -⟩ | h | h | ⟨-, h⟩ | ⟨limit, h⟩
  · cases h
  · rcases startAgent_eq_error h with ⟨pose, -, -, h⟩ | h | ⟨x, y, h⟩ <;> cases h
  · exact h
  · exact h g hg hname hparams
  · cases h

/-- A `main` with parameters fails with its first instruction. -/
theorem fails_of_params (hp : checked source = .ok p) (hc : compile source = .ok code) {g : Function}
    (hg : .function g ∈ p) (hname : g.name = "main") (hparams : g.params ≠ [])
    (hload : load code maze settings = .ok (m, s)) (hsteps : 1 ≤ m.maxSteps) :
    m.Fails s (.stackUnderflow s.ip) ∧ code.run maze settings = .error (.stackUnderflow s.ip) := by
  obtain ⟨ls, hls, rfl⟩ := exists_coded hp hc
  obtain ⟨Δ, hg⟩ := Program.exists_mem_functionsFrom .initial hg
  have hfails := hls.fails_of_params hg hname hparams hload
  refine ⟨hfails, ?_⟩
  obtain ⟨k, hk⟩ := Nat.exists_eq_add_of_le' hsteps
  rw [Code.run_eq_of_load hload, hk, runFrom_of_ends (.fail hfails)]
  rfl

/-- A run of accepted code never misses a label, a function of the program or a variable, and it misses
its `main` only if there is none. It misses a value on the stack just if `main` has parameters, and then
at once. -/
theorem never_stuck (hp : checked source = .ok p) (hc : compile source = .ok code) (maze : Maze)
    (settings : Settings) :
    (∀ f, code.run maze settings = .error f →
      (∀ name, f ≠ .unresolvedLabel name) ∧ (∀ e, f ≠ .unknownInstruction e) ∧
      (∀ name, f ≠ .undefinedVariable name) ∧ ∀ name, f = .unresolvedCall name → name = "next_wall") ∧
    (code.run maze settings = .error .missingMain ↔ ∀ g, .function g ∈ p → g.name ≠ "main") ∧
    ∀ g, .function g ∈ p → g.name = "main" →
      (g.params = [] → ∀ ip, code.run maze settings ≠ .error (.stackUnderflow ip)) ∧
      (g.params ≠ [] → ∀ m s, load code maze settings = .ok (m, s) → 1 ≤ m.maxSteps →
        m.Fails s (.stackUnderflow s.ip) ∧ code.run maze settings = .error (.stackUnderflow s.ip)) := by
  refine ⟨fun f hf => run_ne_unresolved hp hc hf, run_eq_missingMain_iff hp hc, ?_⟩
  intro g hg hname
  constructor
  · intro hparams ip
    exact run_ne_stackUnderflow hp hc hg hname hparams ip
  · intro hparams m s hload hsteps
    exact fails_of_params hp hc hg hname hparams hload hsteps

theorem never_stuck_sample : ∃ p code, checked sample = .ok p ∧ compile sample = .ok code ∧
    (∀ name, code.run .sample {} ≠ .error (.undefinedVariable name)) ∧
    code.run .sample {} ≠ .error .missingMain ∧
    ∀ ip, code.run .sample {} ≠ .error (.stackUnderflow ip) := by
  obtain ⟨p, code, hp, hc, -, -, ⟨g, hg, hname⟩, hparams⟩ := exists_sample
  obtain ⟨hfault, hmissing, hmain⟩ := never_stuck hp hc .sample {}
  exact ⟨p, code, hp, hc, fun name h => (hfault _ h).2.2.1 name rfl,
    fun h => hmissing.mp h g hg hname, (hmain g hg hname).1 (hparams g hg hname)⟩

end Source

end Labyrinth
