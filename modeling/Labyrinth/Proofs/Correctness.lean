import Labyrinth.Proofs.Simulation.Functions

/-!
# The code of a program does what the program means

A run of accepted code, its limits apart, ends as the evaluation of the program does, and leaves the same
behind. Two things are asked of the program: its `main` takes nothing, and the functions that it calls
leave no values unused, which would stand between the operands of their callers.
-/

namespace Labyrinth

open Machine

/-- Whether a fault says that a limit is reached. -/
def Fault.IsLimit : Fault → Prop
  | .stackOverflow _ | .stepsExceeded _ => True
  | _ => False

theorem Fault.IsOverflow.isLimit {f : Fault} (h : f.IsOverflow) : f.IsLimit := by
  cases f <;> first | exact h | exact h.elim

/-- What a run leaves behind is a world. -/
structure Outcome.Agrees (o : Outcome) (w : World) : Prop where
  trace : o.trace = w.trace.toList
  output : o.output = w.output
  store : o.store = w.store
  maze : o.maze = w.maze
  completed : o.completed = w.atGoal

/-- The program has a `main` that gives a value. -/
def Program.GivesValue (p : Program) : Prop := ∃ g, .function g ∈ p ∧ g.name = "main" ∧ g.ret ≠ .void

/-- What a run leaves behind is the world of an evaluation, and its result the value, if `main` gives
one. -/
def Outcome.Of (p : Program) (v : Option Value) (w : World) (o : Outcome) : Prop :=
  o.Agrees w ∧ (p.GivesValue → o.result = v)

variable {p : Program} {ls : List Line} {Γ : Context} {f : Function} {code : Code} {maze : Maze}
  {settings : Settings} {m : Machine} {s₀ s t : State} {fuel c k : Nat} {w : World} {v : Option Value}
  {q : Prop} {r : Except Stop (Option Value × World)}

/-- At a return of `main`, the run halts with what agrees with the evaluation. -/
theorem Scene.ends_of_returning (h : returning code q v w [] .empty t) (hm : m.ops = code.link)
    (hv : p.GivesValue → v.toList.length = 1) :
    ∃ v' t', m.Ends t (.ok (v', t')) ∧ (t'.outcome v').Of p v w := by
  obtain ⟨b, left, ht, -, hop⟩ := h
  have hagrees (v' : Option Value) : ((behind t).outcome v').Agrees w := by
    obtain ⟨-, -, -, rfl⟩ := ht
    exact ⟨rfl, rfl, rfl, rfl, rfl⟩
  rcases hop with ho | ⟨ho, rfl⟩
  · refine ⟨_, _, .ret ht (hm ▸ ho), hagrees _, fun hgives => ?_⟩
    cases v with
    | none => cases hv hgives
    | some x => rfl
  · exact ⟨none, _, .retVoid ht (hm ▸ ho), hagrees _, fun _ => rfl⟩

/-! ### Runs that follow an evaluation -/

namespace Code

theorem run_of_halts {v' : Option Value} {t' : State} (hload : load code maze settings = .ok (m, s₀))
    (hs : m.Steps k s₀ t) (he : m.Ends t (.ok (v', t'))) :
    code.run maze settings = .ok (t'.outcome v') ∨
      m.maxSteps ≤ k ∧ code.run maze settings = .error (.stepsExceeded m.maxSteps) := by
  rw [run_eq_of_load hload]
  rcases runFrom_of_steps_ends hs he m.maxSteps with h | ⟨hk, h⟩
  · exact .inl (by rw [h]; rfl)
  · exact .inr ⟨hk, by rw [h]; rfl⟩

theorem run_of_fails {g : Fault} (hload : load code maze settings = .ok (m, s₀))
    (hs : m.Steps k s₀ t) (hf : m.Fails t g) :
    ∃ g', code.run maze settings = .error g' ∧ (g'.IsLimit ∨ g' = g) := by
  rw [run_eq_of_load hload]
  rcases runFrom_of_steps_ends hs (.fail hf) m.maxSteps with h | ⟨-, h⟩
  · exact ⟨g, by rw [h]; rfl, .inr rfl⟩
  · exact ⟨.stepsExceeded m.maxSteps, by rw [h]; rfl, .inl trivial⟩

/-- How a run ends whose evaluation gives `r`: the same way, or at a limit. -/
def Answers (code : Code) (p : Program) (maze : Maze) (settings : Settings) (fuel : Nat) :
    Except Stop (Option Value × World) → Prop
  | .ok (v, w) => (∃ o, code.run maze settings = .ok o ∧ o.Of p v w) ∨
      ∃ f, code.run maze settings = .error f ∧ f.IsLimit
  | .error .outOfFuel => settings.maxSteps.toNat < fuel →
      ∃ f, code.run maze settings = .error f ∧ f.IsLimit
  | .error stop => ∃ f, code.run maze settings = .error f ∧ (f.IsLimit ∨ stop.Agrees f)

/-- An evaluation that stops, with more fuel than there may be steps, is the evaluation of a run that
fails. -/
theorem Answers.exists_error {stop : Stop} (h : code.Answers p maze settings fuel (.error stop))
    (hfuel : settings.maxSteps.toNat < fuel) :
    ∃ f, code.run maze settings = .error f ∧ (f.IsLimit ∨ stop.Agrees f) := by
  cases stop with
  | outOfFuel =>
    obtain ⟨f, hf, hlimit⟩ := h hfuel
    exact ⟨f, hf, .inl hlimit⟩
  | _ => exact h

/-- An evaluation that stops for a reason of its own is that of a run that fails for it, or at a limit. -/
theorem Answers.of_error {stop : Stop} (h : code.Answers p maze settings fuel (.error stop))
    (hstop : stop ≠ .outOfFuel) :
    ∃ f, code.run maze settings = .error f ∧ (f.IsLimit ∨ stop.Agrees f) := by
  cases stop with
  | outOfFuel => exact absurd rfl hstop
  | _ => exact h

theorem Answers.of_run_eq_ok {o : Outcome} (h : code.Answers p maze settings fuel r)
    (hfuel : settings.maxSteps.toNat < fuel) (ho : code.run maze settings = .ok o) :
    ∃ v w, r = .ok (v, w) ∧ o.Of p v w := by
  cases r with
  | ok r =>
    rcases h with ⟨o', ho', hof⟩ | ⟨f, hf, -⟩
    · obtain rfl := Except.ok.inj (ho.symm.trans ho')
      exact ⟨r.1, r.2, rfl, hof⟩
    · cases ho.symm.trans hf
  | error stop =>
    obtain ⟨f, hf, -⟩ := h.exists_error hfuel
    cases ho.symm.trans hf

theorem Answers.of_run_eq_error {f : Fault} (h : code.Answers p maze settings fuel r)
    (hfuel : settings.maxSteps.toNat < fuel) (hf : code.run maze settings = .error f)
    (hlimit : ¬f.IsLimit) : ∃ stop, r = .error stop ∧ stop.Agrees f := by
  cases r with
  | ok r =>
    rcases h with ⟨o, ho, -⟩ | ⟨f', hf', hlimit'⟩
    · cases hf.symm.trans ho
    · cases hf.symm.trans hf'
      exact absurd hlimit' hlimit
  | error stop =>
    obtain ⟨f', hf', hor⟩ := h.exists_error hfuel
    cases hf.symm.trans hf'
    exact ⟨stop, rfl, hor.resolve_left hlimit⟩

theorem run_of_overflow {g : Fault} (hload : load code maze settings = .ok (m, s₀))
    (hs : m.Steps k s₀ t) (hf : m.Fails t g) (hg : g.IsOverflow) :
    ∃ g, code.run maze settings = .error g ∧ g.IsLimit := by
  obtain ⟨g', hrun, hg' | rfl⟩ := run_of_fails hload hs hf
  · exact ⟨g', hrun, hg'⟩
  · exact ⟨g', hrun, hg.isLimit⟩

/-- A run that comes to a fault ends with it, or at a limit before. -/
theorem run_of_faults {A : Fault → Prop} (hload : load code maze settings = .ok (m, s₀))
    (h : Runs (.faults fun g => g.IsOverflow ∨ A g) m False (fun _ _ => False) c 0 s₀) :
    ∃ g, code.run maze settings = .error g ∧ (g.IsLimit ∨ A g) := by
  rcases h.cases with ⟨k, -, -, t, -, ht⟩ | ⟨k, -, t, g, hs, hf, hg | hg⟩ | ⟨hout, -⟩
  · exact ht.elim
  · obtain ⟨g', hrun, hg'⟩ := run_of_overflow hload hs hf hg
    exact ⟨g', hrun, .inl hg'⟩
  · obtain ⟨g', hrun, hg' | rfl⟩ := run_of_fails hload hs hf
    · exact ⟨g', hrun, .inl hg'⟩
    · exact ⟨g', hrun, .inr hg⟩
  · exact hout.elim

theorem answers_of_tracks (hload : load code maze settings = .ok (m, s₀))
    (hm : m.ops = code.link) (hsteps : m.maxSteps = settings.maxSteps.toNat)
    (hv : ∀ v w, r = .ok (v, w) → p.GivesValue → v.toList.length = 1)
    (h : m.Tracks fuel c s₀ (fun v w => Scene.returning code q v w [] .empty) r) :
    code.Answers p maze settings fuel r := by
  cases r with
  | ok r =>
    obtain ⟨v, w⟩ := r
    rcases (h 0).cases with ⟨k, -, -, t, hs, ht⟩ | ⟨k, -, t, g, hs, hf, hg⟩ | ⟨hout, -⟩
    · obtain ⟨v', t', he, hof⟩ := Scene.ends_of_returning ht hm (hv v w rfl)
      rcases run_of_halts hload hs he with hrun | ⟨-, hrun⟩
      · exact .inl ⟨_, hrun, hof⟩
      · exact .inr ⟨_, hrun, trivial⟩
    · exact .inr (run_of_overflow hload hs hf hg)
    · exact hout.elim
  | error stop =>
    cases stop with
    | outOfFuel =>
      -- Without fuel, the run has taken as many steps as there was of it, which is more than it may.
      intro hlt
      rcases (h 0).cases with ⟨k, -, -, t, -, ht⟩ | ⟨k, -, t, g, hs, hf, hg⟩ | ⟨-, t, hs⟩
      · exact ht.elim
      · exact run_of_overflow hload hs hf hg
      · refine ⟨.stepsExceeded m.maxSteps, ?_, trivial⟩
        rw [run_eq_of_load hload, runFrom_of_lt hs (hsteps ▸ hlt)]
        rfl
    | fault g => exact run_of_faults hload (h 0)
    | divisionByZero => exact run_of_faults hload (h 0)
    | noValue => exact run_of_faults hload (h 0)

/-- With limits above what is needed, a run ends as its evaluation. -/
theorem run_of_tracks (hload : load code maze settings = .ok (m, s₀)) (hm : m.ops = code.link)
    (hsteps : c < m.maxSteps) (hstack : c ≤ m.maxStack)
    (hv : p.GivesValue → v.toList.length = 1)
    (h : m.Tracks fuel c s₀ (fun v w => Scene.returning code q v w [] .empty) (.ok (v, w))) :
    ∃ o, code.run maze settings = .ok o ∧ o.Of p v w := by
  obtain ⟨agent, -, -, -, hempty, hframes, -⟩ := load_eq_ok hload
  rcases (h 0).cases with ⟨k, hk, -, t, hs, ht⟩ | ⟨k, hk, t, g, hs, hf, hg⟩ | ⟨hout, -⟩
  · obtain ⟨v', t', he, hof⟩ := Scene.ends_of_returning ht hm hv
    rcases run_of_halts hload hs he with hrun | ⟨hle, -⟩
    · exact ⟨_, hrun, hof⟩
    · omega
  · have hsize := hs.size_le
    rw [hempty, hframes] at hsize
    have hzero {α : Type} : (Stack.empty : Stack α).size = 0 := rfl
    simp only [hzero] at hsize
    have hfull := hf.full hg
    omega
  · exact hout.elim

end Code

/-! ### Programs -/

theorem Machine.startAgent_congr {settings' : Settings} (h : settings'.start = settings.start) :
    startAgent maze settings' = startAgent maze settings := by
  simp only [startAgent, h]

namespace Program.Coded

theorem gives_value (hp : p.Coded ls) (hsolid : p.Solid) (hf : (Γ, f) ∈ p.functions)
    (hname : f.name = "main") {calls : Calls} (hvalued : calls.Valued p) {args : List Value} {w w' : World}
    (h : f.apply calls fuel Γ args w = .ok (v, w')) (hgives : p.GivesValue) : v.toList.length = 1 := by
  obtain ⟨a, k, k', body, hcoded, -, -⟩ := hp.standsAt hf
  obtain ⟨g, hg, hname', hv⟩ := hgives
  obtain ⟨Δ, hg⟩ := Program.exists_mem_functionsFrom .initial hg
  cases hp.eq_of_name_eq hf hg (hname.trans hname'.symm)
  rw [hcoded.length_apply hsolid hvalued h, Ty.length_values hv]

variable (hp : p.Coded ls) (hsolid : p.Solid) (hquiet : p.Quiet)
  (hmain : ∀ g, .function g ∈ p → g.name = "main" → g.params = [])

include hp hsolid hquiet hmain

/-- The run of a program whose `main` can start follows the evaluation of `main`. -/
theorem tracks_main (hf : (Γ, f) ∈ p.functions) (hname : f.name = "main") (maze : Maze) (agent : Agent)
    (fuel : Nat) : ∃ c, ∀ settings m s₀, startAgent maze settings = .ok agent →
      load (Line.code ls) maze settings = .ok (m, s₀) →
      m.Tracks fuel c s₀ (fun v w => Scene.returning (Line.code ls) (f.discards Γ = false) v w [] .empty)
        (f.apply (p.call fuel) fuel Γ [] ⟨.empty, maze, agent, #[agent], ""⟩) := by
  obtain ⟨a, k, k', body, hcoded, hl, hentry⟩ := hp.standsAt hf
  have hlen : ([] : List Value).length = f.params.length := by
    rw [hmain f (Program.mem_of_mem_functionsFrom hf) hname]; rfl
  obtain ⟨c, hc⟩ := hcoded.simulates (w := ⟨.empty, maze, agent, #[agent], ""⟩) hp hsolid
    (hp.valued hsolid fuel) (hp.simulated hsolid hquiet fuel) hl hlen
  refine ⟨c, fun settings m s₀ hagent hload => hc m ?_ [] .empty s₀ ?_⟩
  · obtain ⟨agent', -, -, rfl, -⟩ := load_eq_ok hload
    rfl
  · obtain ⟨agent', hagent', hentry', -, hstack, hframes, hworld⟩ := load_eq_ok hload
    obtain rfl := Except.ok.inj (hagent.symm.trans hagent')
    rw [hname, hentry'] at hentry
    exact ⟨Option.some.inj hentry, by rw [hstack]; rfl, hframes, hworld⟩

/-- Every evaluation says how the run ends, the limits apart. -/
theorem answers (maze : Maze) (settings : Settings) (fuel : Nat) :
    (Line.code ls).Answers p maze settings fuel (p.eval maze settings fuel) := by
  by_cases hex : ∃ x ∈ p.functions, x.2.name = "main"
  · obtain ⟨⟨Γ, f⟩, hf, hname⟩ := hex
    have hfind := hp.find?_eq hf
    rw [hname] at hfind
    rw [Program.eval, hfind]
    cases hload : load (Line.code ls) maze settings with
    | error g =>
      rcases load_eq_error hload with ⟨hnone, -⟩ | hagent
      · exact absurd hname (hp.entry?_eq_none.mp hnone _ hf)
      · rw [hagent]
        exact ⟨g, Code.run_eq_error_of_load hload, .inr rfl⟩
    | ok start =>
      obtain ⟨m, s₀⟩ := start
      obtain ⟨agent, hagent, -, hm, -⟩ := load_eq_ok hload
      obtain ⟨c, hc⟩ := hp.tracks_main hsolid hquiet hmain hf hname maze agent fuel
      rw [hagent]
      exact Code.answers_of_tracks hload (by rw [hm]) (by rw [hm])
        (fun v w hv => hp.gives_value hsolid hf hname (hp.valued hsolid fuel) hv)
        (hc settings m s₀ hagent hload)
  · have hfind : p.find? "main" = none := by
      refine List.find?_eq_none.mpr fun x hx hname => hex ⟨x, hx, of_decide_eq_true hname⟩
    have hentry := hp.entry?_eq_none.mpr fun x hx hname => hex ⟨x, hx, hname⟩
    rw [Program.eval, hfind]
    exact ⟨.missingMain, Code.run_eq_error_of_load (by rw [load, hentry]), .inr rfl⟩

/-- An evaluation that comes to an end is the run's, if the limits are wide enough. -/
theorem exists_limit {maze : Maze} {settings : Settings} {fuel : Nat} {v : Option Value} {w : World}
    (h : p.eval maze settings fuel = .ok (v, w)) :
    ∃ limit, ∀ settings' : Settings, settings'.start = settings.start →
      limit ≤ settings'.maxSteps.toNat → limit ≤ settings'.maxStack.toNat →
      ∃ o, (Line.code ls).run maze settings' = .ok o ∧ o.Of p v w := by
  rw [Program.eval] at h
  split at h
  · cases h
  next Γ f hfind =>
  have hf := List.mem_of_find?_eq_some hfind
  have hname := List.find?_some hfind
  have hname : f.name = "main" := of_decide_eq_true hname
  cases hagent : startAgent maze settings with
  | error g => rw [hagent] at h; cases h
  | ok agent =>
    rw [hagent] at h
    obtain ⟨c, hc⟩ := hp.tracks_main hsolid hquiet hmain hf hname maze agent fuel
    refine ⟨c + 1, fun settings' hstart hsteps hstack => ?_⟩
    have hagent' : startAgent maze settings' = .ok agent := (startAgent_congr hstart).trans hagent
    cases hload : load (Line.code ls) maze settings' with
    | error g =>
      rcases load_eq_error hload with ⟨hnone, -⟩ | hg
      · exact absurd hname (hp.entry?_eq_none.mp hnone _ hf)
      · cases hg.symm.trans hagent'
    | ok start =>
      obtain ⟨m, s₀⟩ := start
      obtain ⟨-, -, -, hm, -⟩ := load_eq_ok hload
      have htracks := hc settings' m s₀ hagent' hload
      change f.apply (p.call fuel) fuel Γ [] _ = .ok (v, w) at h
      rw [h] at htracks
      refine Code.run_of_tracks hload (by rw [hm]) (by rw [hm]; exact hsteps)
        (by rw [hm]; exact Nat.le_of_succ_le hstack)
        (hp.gives_value hsolid hf hname (hp.valued hsolid fuel) h) htracks

end Program.Coded

namespace Source

variable {source : String}

/-- A run of accepted code that ends by itself does so as the evaluation of the program, with the same
trace, output, variables, maze and result; and an evaluation that comes to an end is that of the run,
unless a limit is reached, which it is not if the limits are wide enough. -/
theorem run_agrees (hp : checked source = .ok p) (hc : compile source = .ok code)
    (hmain : ∀ g, .function g ∈ p → g.name = "main" → g.params = []) (hquiet : p.Quiet) (maze : Maze)
    (settings : Settings) :
    (∀ fuel, settings.maxSteps.toNat < fuel →
      (∀ o, code.run maze settings = .ok o →
        ∃ v w, p.eval maze settings fuel = .ok (v, w) ∧ o.Of p v w) ∧
      ∀ f, code.run maze settings = .error f → ¬f.IsLimit →
        ∃ stop, p.eval maze settings fuel = .error stop ∧ stop.Agrees f) ∧
    (∀ fuel v w, p.eval maze settings fuel = .ok (v, w) →
      ((∃ o, code.run maze settings = .ok o ∧ o.Of p v w) ∨
        ∃ f, code.run maze settings = .error f ∧ f.IsLimit) ∧
      ∃ limit, ∀ settings' : Settings, settings'.start = settings.start →
        limit ≤ settings'.maxSteps.toNat → limit ≤ settings'.maxStack.toNat →
        ∃ o, code.run maze settings' = .ok o ∧ o.Of p v w) ∧
    ∀ fuel stop, p.eval maze settings fuel = .error stop → stop ≠ .outOfFuel →
      ∃ f, code.run maze settings = .error f ∧ (f.IsLimit ∨ stop.Agrees f) := by
  obtain ⟨ls, hls, rfl⟩ := exists_coded hp hc
  have hsolid := solid_of_checked hp
  have hans := hls.answers hsolid hquiet hmain maze settings
  refine ⟨fun fuel hfuel => ⟨fun o ho => ?_, fun f hf hlimit => ?_⟩, fun fuel v w h => ⟨?_, ?_⟩,
    fun fuel stop h hstop => ?_⟩
  · exact (hans fuel).of_run_eq_ok hfuel ho
  · exact (hans fuel).of_run_eq_error hfuel hf hlimit
  · have hans := hans fuel
    rwa [h] at hans
  · exact hls.exists_limit hsolid hquiet hmain h
  · have hans := hans fuel
    rw [h] at hans
    exact hans.of_error hstop

theorem run_agrees_sample : ∃ p code o v w, checked sample = .ok p ∧ compile sample = .ok code ∧
    p.Quiet ∧ code.run .sample {} = .ok o ∧ p.eval .sample {} 1000001 = .ok (v, w) ∧ o.Of p v w := by
  obtain ⟨p, code, hp, hc, -, hquiet, -, hmain⟩ := exists_sample
  have hrun : (compile sample).toOption.any fun code => (code.run .sample {}).toOption.isSome := by
    decide +kernel
  obtain ⟨code', hc', hrun⟩ := Except.any_toOption hrun
  obtain rfl := Except.ok.inj (hc.symm.trans hc')
  obtain ⟨o, ho⟩ := Except.isSome_toOption hrun
  obtain ⟨v, w, hv, hof⟩ := ((run_agrees hp hc hmain hquiet .sample {}).1 1000001 (by decide)).1 o ho
  exact ⟨p, code, o, v, w, hp, hc, hquiet, ho, hv, hof⟩

end Source

end Labyrinth
