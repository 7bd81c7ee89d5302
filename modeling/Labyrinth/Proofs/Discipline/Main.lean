import Labyrinth.Proofs.Discipline.Functions
import Labyrinth.Proofs.Accepted

/-!
# Whole runs keep to a regime

From its start on, the run of a program whose `main` takes nothing stands in states that are in order
(`Regime.Fine`), fails only with the faults that the regime allows, and halts with a value of the type of
`main`. A `main` with parameters finds nothing to take.
-/

namespace Labyrinth

open Machine

namespace Regime

variable {R : Regime} {p : Program} {ls : List Line} {m : Machine} {Γ : Context} {f : Function}
  {maze : Maze} {settings : Settings} {s₀ s : State} {n j j' : Nat} {w : World} {S : List Value}
  {q : Prop} {ty : Ty}

/-- A return with no open call halts, with the top of the stack if there is a value. -/
theorem Returns.ends (h : R.Returns p m ty q S .empty w j j' s) :
    ∃ v, m.Ends s (.ok (v, behind s)) ∧ (ty ≠ .void → ∃ x, v = some x ∧ R.Has x ty) := by
  obtain ⟨b, vs, left, w', ht, -, hvs, -, -, -, hop⟩ := h
  rcases hop with ho | ⟨ho, hvoid⟩
  · refine ⟨_, .ret ht ho, fun hv => ?_⟩
    obtain ⟨x, rfl, hx⟩ := single hv hvs
    exact ⟨x, rfl, hx⟩
  · exact ⟨none, .retVoid ht ho, fun hv => absurd hvoid hv⟩

theorem Returns.fine (hw : R.Typed p w.store) (h : R.Returns p m ty q S .empty w j j' s) :
    R.Fine p s := by
  obtain ⟨b, vs, left, w', ⟨rfl, hitems, -, rfl⟩, hkeep, hvs, -, -, hmark, -⟩ := h
  refine ⟨hkeep.typed hw, fun mark hm => ?_⟩
  obtain rfl := Option.some.inj (hmark.symm.trans hm)
  exact ⟨vs, left ++ S, by rw [hitems, List.append_assoc], hvs⟩

/-- What holds of a state that a run comes to. -/
structure Reached (R : Regime) (p : Program) (m : Machine) (ty : Ty) (s : State) : Prop where
  fine : R.Fine p s
  allows : ∀ f, m.Fails s f → R.Allows f
  result : ∀ v t, m.Ends s (.ok (v, t)) → ty ≠ .void → ∃ x, v = some x ∧ R.Has x ty

theorem reached_of_returns (hw : R.Typed p w.store) (h : R.Returns p m ty q S .empty w j j' s) :
    R.Reached p m ty s := by
  obtain ⟨v, hend, hresult⟩ := h.ends
  refine ⟨h.fine hw, fun f hf => ?_, fun v' t he hv => ?_⟩
  · cases hend.det (.fail hf)
  · cases hend.det he
    exact hresult hv

theorem reached_of_runs {base : State → Prop} {Q : Nat → State → Prop}
    (h : Runs (R.watch p base) m True Q (n + 1) j s) (hQ : ∀ j s, Q j s → R.Reached p m ty s) :
    R.Reached p m ty s := by
  cases h with
  | done h => exact hQ _ _ h
  | step hh hs _ =>
    exact ⟨hh.1, fun f hf => absurd (.fail hf) hs.not_ends, fun v t he => absurd he hs.not_ends⟩
  | fault hh hf ha =>
    refine ⟨hh.1, fun g hg => ?_, fun v t he => ?_⟩
    · cases (Ends.fail hf).det (.fail hg)
      exact ha
    · cases (Ends.fail hf).det he

theorem typed_empty : R.Typed p Store.empty := fun _ _ _ h => by cases h

/-- A program that is in order, and the machine for its code. -/
theorem governs_of_load (hcoded : p.Coded ls) (hsolid : p.Solid) (hquiet : R.typed → p.Quiet)
    (hconsistent : R.typed → p.Consistent)
    (hload : load (Line.code ls) maze settings = .ok (m, s₀)) : R.Governs p ls m := by
  obtain ⟨agent, -, -, rfl, -⟩ := load_eq_ok hload
  exact ⟨hcoded, rfl, hsolid, hquiet, hconsistent⟩

/-- Every state that a run comes to is in order, if `main` takes nothing. -/
theorem Governs.reached (h : R.Governs p ls m) (hf : (Γ, f) ∈ p.functions) (hname : f.name = "main")
    (hparams : f.params = []) (hload : load (Line.code ls) maze settings = .ok (m, s₀))
    (hs : m.Steps n s₀ s) : R.Reached p m f.ret s := by
  obtain ⟨agent, -, hentry, -, hstack, hframes, hworld⟩ := load_eq_ok hload
  have hs₀ : s₀.At s₀.ip ([].reverse ++ []) .empty s₀.toWorld :=
    ⟨rfl, by rw [hstack]; rfl, hframes, rfl⟩
  have hw : R.Typed p s₀.store := by rw [hworld]; exact typed_empty
  have hrun := h.calls (1 + n + 1) (1 + n) (Nat.lt_succ_self _) Γ f s₀.ip hf (hname ▸ hentry) 0 s₀ []
    [] .empty _ hs₀ (by rw [hparams]; exact .nil) hw
  have hend {j : Nat} {t u : State} (ht : R.Returns p m f.ret (f.discards Γ = false) [] .empty
      s₀.toWorld 0 j t) : ¬m.Step t u := by
    obtain ⟨v, hend, -⟩ := ht.ends
    exact fun hu => hu.not_ends hend
  obtain ⟨j', hrun⟩ := hrun.reach hend hs
  exact reached_of_runs hrun fun j s hret => reached_of_returns hw hret

end Regime

/-- A `main` with parameters finds nothing on the stack. -/
theorem Program.Coded.fails_of_params {p : Program} {ls : List Line} {m : Machine} {Γ : Context}
    {f : Function} {maze : Maze} {settings : Settings} {s₀ : State} (h : p.Coded ls)
    (hf : (Γ, f) ∈ p.functions) (hname : f.name = "main") (hparams : f.params ≠ [])
    (hload : load (Line.code ls) maze settings = .ok (m, s₀)) :
    m.Fails s₀ (.stackUnderflow s₀.ip) := by
  obtain ⟨agent, -, hentry, rfl, hstack, -⟩ := load_eq_ok hload
  obtain ⟨a, k, k', body, -, hl, hentry'⟩ := h.standsAt hf
  rw [hname, hentry] at hentry'
  have hstores := hl.left.left.right
  obtain ⟨x, xs, hx⟩ := List.exists_cons_of_ne_nil (List.reverse_ne_nil_iff.mpr hparams)
  rw [hx] at hstores
  have hop := Program.Coded.op_at hstores
  refine ⟨.store x.name, by rw [Option.some.inj hentry']; exact hop, ?_⟩
  rw [take_eq, Machine.step, State.pop_eq_error (by rw [behind, hstack]; rfl)]
  rfl

end Labyrinth
