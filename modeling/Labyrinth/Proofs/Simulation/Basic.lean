import Labyrinth.Proofs.Evaluation.Basic
import Labyrinth.Proofs.Machine.Room

/-!
# Runs that follow an evaluation

`Simulates code fuel pre r post`: where the evaluation gives `r`, a run that starts with `pre` comes to
`post`, fails for the reason that stopped the evaluation, or takes as many steps as there was fuel. Before
that, the stack may be full. How many steps are needed does not depend on the limits of the machine, nor
on what stands below on the stack.
-/

namespace Labyrinth

open Machine

/-- Nothing is watched but the faults. -/
def Watch.faults (allows : Fault → Prop) : Watch := ⟨fun _ => True, allows, fun _ => 0⟩

/-- How a run goes on that follows an evaluation. -/
def Machine.Tracks {α : Type} (m : Machine) (fuel c : Nat) (s : State) (Q : α → World → State → Prop) :
    Except Stop (α × World) → Prop
  | .ok r => ∀ j, Runs (.faults Fault.IsOverflow) m False (fun _ t => Q r.1 r.2 t) c j s
  | .error .outOfFuel => ∀ j, Runs (.faults Fault.IsOverflow) m True (fun _ _ => False) fuel j s
  | .error stop =>
    ∀ j, Runs (.faults fun f => f.IsOverflow ∨ stop.Agrees f) m False (fun _ _ => False) c j s

/-- A state, seen from the values and the open calls that were there before. -/
abbrev Scene := List Value → Stack Nat → State → Prop

def Simulates {α : Type} (code : Code) (fuel : Nat) (pre : Scene) (r : Except Stop (α × World))
    (post : α → World → Scene) : Prop :=
  ∃ c, ∀ m : Machine, m.ops = code.link → ∀ S F s, pre S F s →
    m.Tracks fuel c s (fun a w => post a w S F) r

namespace Machine.Tracks

variable {α β : Type} {m : Machine} {fuel c n : Nat} {s : State} {Q : α → World → State → Prop}
  {r : Except Stop (α × World)} {T : State → Prop}

/-- Steps in front of what follows an evaluation. -/
theorem before (h : ∀ j, Runs (.faults Fault.IsOverflow) m False (fun _ t => T t) n j s)
    (next : ∀ t, T t → m.Tracks fuel c t Q r) : m.Tracks fuel (n + c) s Q r := by
  have hmore {A : Fault → Prop} (j : Nat) :
      Runs (.faults fun f => f.IsOverflow ∨ A f) m False (fun _ t => T t) n j s :=
    Runs.mono (W := .faults Fault.IsOverflow) (fun _ => id) (fun _ => .inl) rfl (fun _ _ => id) (h j)
  cases r with
  | ok r => exact fun j => (h j).after fun j t ht => next t ht j
  | error stop =>
    cases stop with
    | outOfFuel => exact fun j => (h j).resume fun j t ht => next t ht j
    | _ => exact fun j => (hmore j).after fun j t ht => next t ht j

/-- One step gives room for more fuel. -/
theorem tick {t : State} (hs : m.Step s t) (h : m.Tracks fuel c t Q r) :
    m.Tracks (fuel + 1) (c + 1) s Q r := by
  cases r with
  | ok r => exact fun j => .step trivial hs (h _)
  | error stop => cases stop <;> exact fun j => .step trivial hs (h _)

theorem of_overflow {f : Fault} (hs : m.Fails s f) (hf : f.IsOverflow) :
    m.Tracks (fuel + 1) (c + 1) s Q r := by
  cases r with
  | ok r => exact fun j => .fault trivial hs hf
  | error stop =>
    cases stop with
    | outOfFuel => exact fun j => .fault trivial hs hf
    | _ => exact fun j => .fault trivial hs (.inl hf)

theorem imp {Q' : α → World → State → Prop} (hQ : ∀ a w t, Q a w t → Q' a w t)
    (h : m.Tracks fuel c s Q r) : m.Tracks fuel c s Q' r := by
  cases r with
  | ok r => exact fun j => (h j).imp fun _ t => hQ r.1 r.2 t
  | error stop => cases stop <;> exact h

theorem of_le {fuel' : Nat} (hle : fuel' ≤ fuel) (h : m.Tracks fuel c s Q r) :
    m.Tracks fuel' c s Q r := by
  cases r with
  | ok r => exact h
  | error stop =>
    cases stop with
    | outOfFuel => exact fun j => (h j).of_le hle
    | _ => exact h

/-- What stopped an evaluation stops what comes behind it. -/
theorem error {stop : Stop} {Q' : β → World → State → Prop}
    (h : m.Tracks fuel c s Q (.error stop)) : m.Tracks fuel c s Q' (.error stop) := by
  cases stop <;> exact h

end Machine.Tracks

namespace Simulates

variable {α β : Type} {code : Code} {fuel : Nat} {pre pre' : Scene} {r : Except Stop (α × World)}
  {post post' : α → World → Scene} {w : World}

theorem bind {x : Evaluation α} {f : α → Evaluation β} {last : β → World → Scene}
    (hx : Simulates code fuel pre (x w) post)
    (hf : ∀ a w', x w = .ok (a, w') → Simulates code fuel (post a w') (f a w') last) :
    Simulates code fuel pre ((x >>= f) w) last := by
  obtain ⟨c, hx⟩ := hx
  cases hr : x w with
  | error stop =>
    have hbind : (x >>= f) w = .error stop := by simp only [Bind.bind, StateT.bind, Except.bind, hr]
    rw [hbind]
    exact ⟨c, fun m hm S F s hs => (hr ▸ hx m hm S F s hs).error⟩
  | ok r =>
    obtain ⟨a, w'⟩ := r
    have hbind : (x >>= f) w = f a w' := by simp only [Bind.bind, StateT.bind, Except.bind, hr]
    obtain ⟨c', hf⟩ := hf a w' hr
    rw [hbind]
    refine ⟨c + c', fun m hm S F s hs => .before ?_ fun t ht => hf m hm S F t ht⟩
    have h := hx m hm S F s hs
    rw [hr] at h
    exact h

/-- Other values and calls may be counted among those that were there before. -/
theorem imp (hpre : ∀ S F s, pre' S F s → ∃ S' F', pre S' F' s ∧
      ∀ a w t, post a w S' F' t → post' a w S F t)
    (h : Simulates code fuel pre r post) : Simulates code fuel pre' r post' := by
  obtain ⟨c, h⟩ := h
  refine ⟨c, fun m hm S F s hs => ?_⟩
  obtain ⟨S', F', hs, hpost⟩ := hpre S F s hs
  exact (h m hm S' F' s hs).imp hpost

theorem of_le {fuel' : Nat} (hle : fuel' ≤ fuel) (h : Simulates code fuel pre r post) :
    Simulates code fuel' pre r post := by
  obtain ⟨c, h⟩ := h
  exact ⟨c, fun m hm S F s hs => (h m hm S F s hs).of_le hle⟩

/-- Steps that nothing corresponds to. -/
theorem before {n : Nat} (hpre : ∀ m : Machine, m.ops = code.link → ∀ S F s, pre S F s → ∀ j,
      Runs (.faults Fault.IsOverflow) m False (fun _ t => pre' S F t) n j s)
    (h : Simulates code fuel pre' r post) : Simulates code fuel pre r post := by
  obtain ⟨c, h⟩ := h
  exact ⟨n + c, fun m hm S F s hs => .before (hpre m hm S F s hs) fun t ht => h m hm S F t ht⟩

/-- Behind a step, there is more fuel left. -/
theorem tick (hpre : ∀ m : Machine, m.ops = code.link → ∀ S F s, pre S F s →
      (∃ t, m.Step s t ∧ pre' S F t) ∨ ∃ f, m.Fails s f ∧ f.IsOverflow)
    (h : Simulates code fuel pre' r post) : Simulates code (fuel + 1) pre r post := by
  obtain ⟨c, h⟩ := h
  refine ⟨c + 1, fun m hm S F s hs => ?_⟩
  rcases hpre m hm S F s hs with ⟨t, hst, ht⟩ | ⟨f, hf, hover⟩
  · exact .tick hst (h m hm S F t ht)
  · exact .of_overflow hf hover

theorem ok {a : α} {n : Nat} (h : ∀ m : Machine, m.ops = code.link → ∀ S F s, pre S F s → ∀ j,
      Runs (.faults Fault.IsOverflow) m False (fun _ t => post a w S F t) n j s) :
    Simulates code fuel pre (.ok (a, w)) post :=
  ⟨n, h⟩

/-- Steps behind what follows an evaluation. -/
theorem after {n : Nat} (hr : Simulates code fuel pre r post)
    (h : ∀ a w, r = .ok (a, w) → ∀ m : Machine, m.ops = code.link → ∀ S F s, post a w S F s → ∀ j,
      Runs (.faults Fault.IsOverflow) m False (fun _ t => post' a w S F t) n j s) :
    Simulates code fuel pre r post' := by
  obtain ⟨c, hr⟩ := hr
  cases r with
  | error stop => exact ⟨c, fun m hm S F s hs => (hr m hm S F s hs).error⟩
  | ok r => exact ⟨c + n, fun m hm S F s hs => .before (hr m hm S F s hs) (h r.1 r.2 rfl m hm S F)⟩

/-- Nothing happens, and nothing is needed. -/
theorem pure {a : α} (h : ∀ S F s, pre S F s → post a w S F s) :
    Simulates code fuel pre (.ok (a, w)) post :=
  .ok (n := 0) fun _ _ S F s hs _ => .done (h S F s hs)

theorem fails {stop : Stop} {n : Nat} (hstop : stop ≠ .outOfFuel)
    (h : ∀ m : Machine, m.ops = code.link → ∀ S F s, pre S F s → ∀ j,
      Runs (.faults fun f => f.IsOverflow ∨ stop.Agrees f) m False (fun _ _ => False) n j s) :
    Simulates code fuel pre (.error stop : Except Stop (α × World)) post := by
  refine ⟨n, fun m hm S F s hs => ?_⟩
  cases stop with
  | outOfFuel => exact absurd rfl hstop
  | _ => exact h m hm S F s hs

theorem outOfFuel : Simulates code 0 pre (.error .outOfFuel : Except Stop (α × World)) post :=
  ⟨0, fun _ _ _ _ _ _ _ => .out trivial⟩

end Simulates

end Labyrinth
