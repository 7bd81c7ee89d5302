import Labyrinth.Proofs.Safety

/-!
# Static and dynamic types agree

Where declarations of one name have one type and called functions leave nothing unused, the values that a
run stores, takes and returns have the forms of the types that the analyser gave them.
-/

namespace Labyrinth

open Machine

namespace Regime

/-- Values have the forms of their types, and variables in scope are defined. -/
def exact : Regime where
  typed := True
  defined := True

end Regime

variable {p : Program} {ls : List Line} {maze : Maze} {settings : Settings} {m : Machine} {s : State}

/-- The values that the instruction at a state takes, as far as they are there, have the forms of the
types that the analyser gave to them. -/
def State.TakesTyped (p : Program) (s : State) : Prop :=
  ∀ mark, p.marks[s.ip]? = some mark → ∀ (i : Nat) v ty,
    s.stack.items[i]? = some v → mark.takes[i]? = some ty → v.Has ty

/-- The variables have the forms of the types that they are declared with. -/
def State.StoresTyped (p : Program) (s : State) : Prop :=
  ∀ name v ty, s.store.get? name = some v → (name, ty) ∈ p.declared → v.Has ty

theorem Regime.Fine.takesTyped (h : Regime.exact.Fine p s) : s.TakesTyped p := by
  intro mark hm i v ty hv hty
  obtain ⟨vs, S, hitems, hvs⟩ := h.takes mark hm
  have hlt : i < vs.length := by
    rw [hvs.length_eq]
    exact (List.getElem?_eq_some_iff.mp hty).1
  rw [hitems, List.getElem?_append_left hlt] at hv
  have hlt' := (List.getElem?_eq_some_iff.mp hty).1
  have h := List.Forall₂.get hvs hlt hlt'
  rw [List.getElem?_eq_getElem hlt] at hv
  rw [List.getElem?_eq_getElem hlt'] at hty
  cases hv
  cases hty
  exact h trivial

/-- Every state of a run is typed, and what it halts with has the type of `main`. -/
theorem Program.Coded.typed_of_reaches (h : p.Coded ls) (hsolid : p.Solid) (hquiet : p.Quiet)
    (hconsistent : p.Consistent) (hs : (Line.code ls).Reaches maze settings m s) :
    s.StoresTyped p ∧ s.TakesTyped p ∧ (∀ f, m.Fails s f → ∀ problem, f ≠ .type problem) ∧
      ∀ v t, m.Ends s (.ok (v, t)) → ∀ g, .function g ∈ p → g.name = "main" → g.ret ≠ .void →
        ∃ x, v = some x ∧ x.Has g.ret := by
  obtain ⟨s₀, n, hload, hs⟩ := hs
  obtain ⟨Γ, g, hg, hname⟩ := h.exists_main hload
  by_cases hparams : g.params = []
  · have hgov := Regime.governs_of_load (R := Regime.exact) h hsolid (fun _ => hquiet)
      (fun _ => hconsistent) hload
    obtain ⟨hfine, hallows, hresult⟩ := hgov.reached hg hname hparams hload hs
    refine ⟨fun name v ty hv hd => hfine.typed name v ty hv hd trivial, hfine.takesTyped,
      fun f hf problem he => ?_, fun v t he g' hg' hname' hret => ?_⟩
    · subst he
      have hallow := hallows _ hf
      cases problem with
      | startHeading dx dy => exact hallow
      | teleport x => exact hallow trivial
    · obtain ⟨Δ, hg'⟩ := Program.exists_mem_functionsFrom .initial hg'
      cases h.eq_of_name_eq hg hg' (hname.trans hname'.symm)
      obtain ⟨x, rfl, hx⟩ := hresult v t he hret
      exact ⟨x, rfl, hx trivial⟩
  · have hfails := h.fails_of_params hg hname hparams hload
    cases hs with
    | head hst _ => exact absurd (.fail hfails) hst.not_ends
    | refl =>
      obtain ⟨agent, -, -, -, hstack, -, hworld⟩ := load_eq_ok hload
      refine ⟨fun name v ty hv => ?_, fun mark _ i v ty hv => ?_, fun f hf problem he => ?_,
        fun v t he => ?_⟩
      · rw [hworld] at hv; cases hv
      · rw [hstack] at hv; cases hv
      · subst he; cases (Ends.fail hfails).det (.fail hf)
      · cases (Ends.fail hfails).det he

namespace Source

variable {source : String} {code : Code}

/-- In every state of a run, the variables and the values that are taken next have the forms of their
types; so no run ends with a fault about types, and a `main` with a value returns one of its type. The
types of what is taken are those of the marks, which stand beside the instructions. -/
theorem run_typed (hp : checked source = .ok p) (hc : compile source = .ok code)
    (hconsistent : p.Consistent) (hquiet : p.Quiet) (maze : Maze) (settings : Settings)
    (hstart : ∀ pose, settings.start = some pose → Heading.ofStep? pose.dirX pose.dirY ≠ none) :
    (∀ (a : Nat) i, code[a]? = some i →
      ∃ mark, p.marks[a]? = some mark ∧ i.pops ≤ mark.takes.length) ∧
    (∀ m s, code.Reaches maze settings m s → s.StoresTyped p ∧ s.TakesTyped p) ∧
    (∀ problem, code.run maze settings ≠ .error (.type problem)) ∧
    ∀ o, code.run maze settings = .ok o → ∀ g, .function g ∈ p → g.name = "main" → g.ret ≠ .void →
      ∃ v, o.result = some v ∧ v.Has g.ret := by
  obtain ⟨ls, hls, rfl⟩ := exists_coded hp hc
  have htyped {m : Machine} {s : State} (hs : (Line.code ls).Reaches maze settings m s) :=
    hls.typed_of_reaches (solid_of_checked hp) hquiet hconsistent hs
  refine ⟨fun a i hi => ?_, fun m s hs => ⟨(htyped hs).1, (htyped hs).2.1⟩, fun problem hf => ?_,
    fun o ho g hg => ?_⟩
  · obtain ⟨l, -, rfl, hmark, hfits⟩ := hls.fits hi
    exact ⟨l.mark, hmark, hfits.pops⟩
  · rcases Code.run_eq_error hf with hf | ⟨m, s, hs, hf⟩ | ⟨limit, hf⟩
    · rcases load_eq_error hf with ⟨-, hf⟩ | hf
      · cases hf
      · rcases startAgent_eq_error hf with ⟨pose, hpose, hheading, -⟩ | h | ⟨x, y, h⟩
        · exact hstart pose hpose hheading
        · cases h
        · cases h
    · exact (htyped hs).2.2.1 _ hf problem rfl
    · cases hf
  · obtain ⟨m, s, v, t, hs, he, rfl⟩ := Code.run_eq_ok ho
    exact (htyped hs).2.2.2 v t he g hg

theorem run_typed_sample : ∃ p code, checked sample = .ok p ∧ compile sample = .ok code ∧
    p.Consistent ∧ p.Quiet ∧
    ∀ m s, code.Reaches .sample {} m s → s.StoresTyped p ∧ s.TakesTyped p := by
  obtain ⟨p, code, hp, hc, hconsistent, hquiet, -⟩ := exists_sample
  exact ⟨p, code, hp, hc, hconsistent, hquiet,
    (run_typed hp hc hconsistent hquiet .sample {} nofun).2.1⟩

end Source

end Labyrinth
