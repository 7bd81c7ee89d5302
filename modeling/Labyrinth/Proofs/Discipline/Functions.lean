import Labyrinth.Proofs.Discipline.Statements

/-!
# Functions keep to a regime

A call binds the arguments to the parameters and comes to a return; a function that has a value does not
run to its end without one. `Regime.Governs.calls` is the induction over the number of steps that closes
the circle between calls and bodies.
-/

namespace Labyrinth

open Machine

theorem Program.scopes_of_mem_functionsFrom {Δ : Context} {f : Function} :
    ∀ {ds : Program} {Γ : Context}, (Δ, f) ∈ ds.functionsFrom Γ →
      Δ.inner = Γ.inner ∧ Δ.outer = Γ.outer
  | .stmt _ :: ds, Γ, h => by
    have h : (Δ, f) ∈ functionsFrom Γ ds := h
    exact scopes_of_mem_functionsFrom h
  | .function _ :: _, _, h => by
    rcases List.mem_cons.mp h with h | h
    · cases h; exact ⟨rfl, rfl⟩
    · have h := scopes_of_mem_functionsFrom h
      exact h

/-- Inside a function, the parameters are all the variables there are. -/
theorem Program.exists_param {p : Program} {Γ : Context} {f : Function} (hf : (Γ, f) ∈ p.functions)
    {name : String} {ty : Ty} (hn : (Γ.inside f).lookup? name = some ty) :
    ∃ x ∈ f.params, x.name = name := by
  obtain ⟨hinner, houter⟩ := scopes_of_mem_functionsFrom hf
  obtain ⟨scope, hs, hl⟩ := List.exists_of_findSome?_eq_some hn
  have hmem := mem_of_lookup hl
  simp only [Context.inside, Context.push, Context.addFunction, hinner, houter, Context.initial,
    List.mem_cons, List.not_mem_nil, or_false] at hs
  rcases hs with rfl | rfl
  · obtain ⟨x, hx, he⟩ := List.mem_map.mp (List.mem_reverse.mp hmem)
    cases he
    exact ⟨x, hx, rfl⟩
  · cases hmem

namespace Regime

variable {R : Regime} {p : Program} {Γ : Context} {ls rest : List Line} {m : Machine}
  {n j a lo hi : Nat} {s : State} {S : List Value} {F : Stack Nat} {w : World}

theorem Governs.keeps_receive (h : R.Governs p ls m) {xs : List Param} {vs : List Value}
    (hvs : List.Forall₂ (fun v (x : Param) => R.Has v x.ty) vs xs)
    (hd : ∀ x ∈ xs, (x.name, x.ty) ∈ p.declared) (w : World) : R.Keeps p w (w.receive xs vs) := by
  induction hvs generalizing w with
  | nil => exact .refl w
  | @cons v x vs xs hv _ ih =>
    exact (h.keeps_assign (hd x (List.mem_cons_self ..)) hv).trans
      (ih (fun y hy => hd y (List.mem_cons_of_mem _ hy)) _)

theorem get?_receive_of_ne_none {xs : List Param} {vs : List Value} {name : String} :
    ∀ {w : World}, w.store.get? name ≠ none → (w.receive xs vs).store.get? name ≠ none := by
  induction xs generalizing vs with
  | nil => exact id
  | cons x xs ih =>
    intro w h
    cases vs with
    | nil => exact h
    | cons v vs =>
      refine ih ?_
      rw [World.get?_assign]
      split
      · exact nofun
      · exact h

theorem get?_receive_ne_none {xs : List Param} {vs : List Value} (hlen : vs.length = xs.length)
    {x : Param} (hx : x ∈ xs) : (w.receive xs vs).store.get? x.name ≠ none := by
  induction xs generalizing vs w with
  | nil => cases hx
  | cons y xs ih =>
    obtain ⟨v, vs, rfl⟩ := List.exists_cons_of_length_eq_add_one hlen
    rcases List.mem_cons.mp hx with rfl | hx
    · show ((w.assign x.name v).receive xs vs).store.get? x.name ≠ none
      exact get?_receive_of_ne_none (get?_assign_ne_none w x.name v)
    · exact ih (Nat.succ.inj hlen) hx

/-- Values are stored in parameters, the first of which stands on top of the stack. -/
theorem Governs.runs_params (h : R.Governs p ls m) {xs : List Param} {vs : List Value}
    (hvs : List.Forall₂ (fun v (x : Param) => R.Has v x.ty) vs xs)
    (hd : ∀ x ∈ xs, (x.name, x.ty) ∈ p.declared)
    (hl : StandsAt ls a (xs.map fun x => .taking [x.ty] (.store x.name))) (hlo : lo ≤ a)
    (hhi : a + xs.length ≤ hi) (hs : s.At a (vs ++ S) F w) (hw : R.Typed p w.store) :
    Runs (R.watch p (State.Inside F lo hi)) m True
      (fun j' t => j' = j ∧ t.At (a + xs.length) S F (w.receive xs vs)) n j s := by
  induction hvs generalizing n a s w with
  | nil => exact .done ⟨rfl, hs⟩
  | @cons v x vs xs hv _ ih =>
    rw [List.length_cons] at hhi
    obtain ⟨hop, hh, hcount⟩ := h.ready [v] (State.Inside F lo hi) (S := vs ++ S) hl hs (.cons hv .nil)
      hw (hs.inside hlo (by omega))
    have hassign := h.keeps_assign (w := w) (hd x (List.mem_cons_self ..)) hv
    cases n with
    | zero => exact .out trivial
    | succ n =>
    refine .store (v := v) (S := vs ++ S) hs hop hh fun t ht => ?_
    rw [hcount]
    refine (ih (fun x hx => hd x (List.mem_cons_of_mem _ hx)) hl.tail (by omega) (by omega) ht
      (hassign.typed hw)).imp fun j' u hu => ⟨hu.1, ?_⟩
    simpa [World.receive, Nat.add_assoc, Nat.add_comm 1] using hu.2

/-- A function binds its arguments and comes to a return, if the functions it calls do. -/
theorem Governs.runs_body (h : R.Governs p ls m) {f : Function} {k k' : Nat} {body : List Line}
    (hf : f.Coded p Γ k k' body) (hl : StandsAt ls a (f.lines body)) (hcalls : R.Calls p ls m n) :
    R.FunctionRuns p m Γ f (a + 1) n := by
  intro j s args S F w hs hargs hw
  have hstores := hl.left.left.right
  have hbody := hl.left.right
  have hfin := hl.right
  simp only [List.length_append, List.length_singleton, List.length_map, List.length_reverse,
    ← Nat.add_assoc] at hstores hbody hfin
  have hparams : List.Forall₂ (fun v (x : Param) => R.Has v x.ty) args.reverse f.params.reverse :=
    List.forall₂_reverse_iff.mpr (List.forall₂_map_right_iff.mp hargs)
  refine (watch_mono (fun _ hin => hin.above) (h.runs_params hparams (fun x hx =>
    hf.params x (List.mem_reverse.mp hx)) hstores (Nat.le_refl _) (Nat.le_refl _) hs hw)).bind
    fun i hik j₁ t ht => ?_
  obtain ⟨rfl, ht⟩ := ht
  rw [List.length_reverse] at ht
  have hkeep := h.keeps_receive hparams (fun x hx => hf.params x (List.mem_reverse.mp hx)) w
  have hw₁ : R.Stores p (Γ.inside f) (w.receive f.params.reverse args.reverse).store := by
    refine ⟨hkeep.typed hw, fun _ name ty hn => ?_⟩
    obtain ⟨x, hx, rfl⟩ := Program.exists_param hf.mem hn
    exact get?_receive_ne_none hparams.length_eq (List.mem_reverse.mpr hx)
  refine (watch_mono (fun _ hin => hin.above) (hf.body.runs h (hcalls.mono hik) hbody (Nat.le_refl _)
    (Nat.le_refl _) ht hw₁)).imp fun j₂ u hu => ?_
  rcases hu with ⟨hn, left, w₂, hu, hw₂, hkeep', hj, hleft⟩ | hret
  · -- The body is left without a return, so the function has no value.
    have hvoid : f.ret = .void := by
      refine Decidable.byContradiction fun hv => ?_
      have hreturns : Stmt.anyReturns f.body = true := hf.returns hv
      rw [hn] at hreturns
      cases hreturns
    obtain ⟨hop, -⟩ := h.ready [] (State.Above F) hfin hu .nil hw₂.typed hu.above
    rw [hvoid]
    exact ⟨_, [], left, w₂, hu, hkeep.trans hkeep', .nil, hj, hleft, h.coded.mark_at hfin,
      .inr ⟨hop, rfl⟩⟩
  · obtain ⟨b, vs, left, w₂, hu, hkeep', hrest⟩ := hret
    exact ⟨b, vs, left, w₂, hu, hkeep.trans hkeep', hrest⟩

/-- Every call of a function comes to a return, as far as it is followed. -/
theorem Governs.calls (h : R.Governs p ls m) (n : Nat) : R.Calls p ls m n := by
  induction n with
  | zero => exact fun k hk => absurd hk (Nat.not_lt_zero k)
  | succ n ih =>
    intro k hk Γ f entry hf hentry
    obtain ⟨a, i, i', body, hcoded, hl, hentry'⟩ := h.coded.standsAt hf
    obtain rfl := Option.some.inj (hentry.symm.trans hentry')
    exact h.runs_body hcoded hl (ih.mono (Nat.le_of_lt_succ hk))

end Regime

end Labyrinth
