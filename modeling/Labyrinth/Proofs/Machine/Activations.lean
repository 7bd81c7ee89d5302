import Labyrinth.Proofs.Machine.Room

/-!
# Activations

A call opens an activation, and a return closes the last one that is open. `Machine.Goes s t`: from `s`
the machine comes to `t` in one activation, with calls between that are closed again. Whatever state a
run comes to, it came there so from the start of its innermost activation (`Machine.Open`).
-/

namespace Labyrinth

namespace Machine

variable {m : Machine} {s t u : State} {a : Nat} {F : Stack Nat}

/-! ### What a step does to the place and the open calls -/

/-- The instruction goes on at `k` with the open calls `F`, if it goes on. -/
def GoesOn (k : Nat) (F : Stack Nat) : Except Fault Next → Prop
  | .ok (.state t) => t.ip = k ∧ t.frames = F
  | .ok (.halt _ _) => False
  | .error _ => True

theorem carries_goesOn (m : Machine) (k : Nat) (F : Stack Nat) :
    m.Carries (fun s => s.ip = k ∧ s.frames = F) (GoesOn k F) where
  state := id
  error := fun _ => trivial
  push := by
    intro s hs v
    unfold push
    split
    · exact hs
    · exact trivial
  pop := fun hs _ => hs
  world := fun hs _ => hs

theorem goesOn_step (ip : Nat) (s : State) {op : Op} (hop : op.goesOn) :
    GoesOn s.ip s.frames (m.step ip s op) :=
  (carries_goesOn m s.ip s.frames).step_of_goesOn ⟨rfl, rfl⟩ ip hop

/-- What an instruction does to the place and the open calls, and to the top of the stack where that
decides how a run goes on. -/
def Moves (s t : State) : Op → Prop
  | .push v => t.ip = s.ip + 1 ∧ t.frames = s.frames ∧ t.stack.top? = some v
  | .jump target _ => target = some t.ip ∧ t.frames = s.frames
  | .jumpIfFalse target _ => t.frames = s.frames ∧ ∃ v, s.stack.top? = some v ∧
      if v.truthy then t.ip = s.ip + 1 else target = some t.ip
  | .call (.address entry) _ => t.ip = entry ∧ t.frames = s.frames.push (s.ip + 1)
  | .ret | .retVoid => s.frames = t.frames.push t.ip
  | _ => t.ip = s.ip + 1 ∧ t.frames = s.frames

theorem frames_of_back {v : Option Value} (h : back s v = .state t) :
    s.frames = t.frames.push t.ip := by
  unfold back at h
  split at h
  next hpop => cases h; exact Stack.ext (Stack.pop?_eq_some_iff.mp hpop)
  · cases h

/-- Every step is of one of these kinds. -/
theorem Step.moves (h : m.Step s t) : ∃ op, m.ops[s.ip]? = some op ∧ Moves s t op := by
  obtain ⟨op, ho, ht⟩ := h
  refine ⟨op, ho, ?_⟩
  rw [take_eq] at ht
  have hnext (hop : op.goesOn) : t.ip = s.ip + 1 ∧ t.frames = s.frames := by
    have hgo := goesOn_step (m := m) s.ip (behind s) hop
    rwa [ht] at hgo
  cases op with
  | push v =>
    refine ⟨(hnext rfl).1, (hnext rfl).2, ?_⟩
    rw [step, Machine.push] at ht
    split at ht
    · cases ht; rfl
    · cases ht
  | jump target label =>
    cases target with
    | none => cases ht
    | some b => cases ht; exact ⟨rfl, rfl⟩
  | jumpIfFalse target label =>
    rw [step, State.pop] at ht
    split at ht
    next v stack hpop =>
      have htop : s.stack.top? = some v := by
        rw [Stack.top?, show s.stack.items = v :: stack.items from Stack.pop?_eq_some_iff.mp hpop]
        rfl
      change (if v.truthy then _ else _) = _ at ht
      cases hv : v.truthy with
      | true =>
        rw [hv] at ht
        cases ht
        exact ⟨rfl, v, htop, by rw [hv]; rfl⟩
      | false =>
        rw [hv] at ht
        cases target with
        | none => cases ht
        | some b => cases ht; exact ⟨rfl, v, htop, by rw [hv]; rfl⟩
    · cases ht
  | call target name =>
    cases target with
    | action action => exact hnext rfl
    | unresolved => cases ht
    | address entry =>
      rw [step] at ht
      split at ht
      · cases ht; exact ⟨rfl, rfl⟩
      · cases ht
  | ret | retVoid => exact frames_of_back (s := behind s) (Except.ok.inj ht)
  | load name => exact hnext rfl
  | store name => exact hnext rfl
  | binary op => exact hnext rfl
  | neg | not | toFloat | skip => exact hnext rfl

/-- A step keeps the open calls, opens one or closes the last one. -/
theorem Step.frames_cases (h : m.Step s t) :
    t.frames = s.frames ∨ t.frames = s.frames.push (s.ip + 1) ∨ s.frames = t.frames.push t.ip := by
  obtain ⟨op, -, hm⟩ := h.moves
  unfold Moves at hm
  split at hm
  · exact .inl hm.2.1
  · exact .inl hm.2
  · exact .inl hm.1
  · exact .inr (.inl hm.2)
  · exact .inr (.inr hm)
  · exact .inr (.inr hm)
  · exact .inl hm.2

/-- A step that closes a call is a return. -/
theorem Step.ret_of_close (h : m.Step s t) (hpop : s.frames = t.frames.push a) :
    m.ops[s.ip]? = some .ret ∨ m.ops[s.ip]? = some .retVoid := by
  obtain ⟨op, ho, hm⟩ := h.moves
  have hne (hkeep : t.frames = s.frames) : False := Stack.push_ne _ _ (hpop.symm.trans hkeep.symm)
  have hno (hpush : t.frames = s.frames.push (s.ip + 1)) : False := by
    have hlen := congrArg (fun F => F.items.length) hpop
    simp only [hpush, Stack.items_push, List.length_cons] at hlen
    omega
  unfold Moves at hm
  split at hm
  · exact (hne hm.2.1).elim
  · exact (hne hm.2).elim
  · exact (hne hm.1).elim
  · exact (hno hm.2).elim
  · exact .inl ho
  · exact .inr ho
  · exact (hne hm.2).elim

theorem back_eq_halt {v v' : Option Value} (h : back s v = .halt v' t) : s.frames = .empty ∧ v' = v := by
  unfold back at h
  split at h
  · cases h
  next hpop => cases h; exact ⟨Stack.ext (Stack.pop?_eq_none_iff.mp hpop), rfl⟩

/-- A run ends without a fault behind the code, or at a return with no call open. -/
theorem Ends.cases_ok {v : Option Value} (h : m.Ends s (.ok (v, t))) :
    m.ops[s.ip]? = none ∨ s.frames = .empty ∧
      (m.ops[s.ip]? = some .ret ∧ v = s.stack.top? ∨ m.ops[s.ip]? = some .retVoid ∧ v = none) := by
  cases h with
  | off ho => exact .inl ho
  | @halt op v t ho ht =>
    rw [take_eq] at ht
    have hstays : ¬op.goesOn := by
      intro hop
      have hgo := goesOn_step (m := m) s.ip (behind s) hop
      rwa [ht] at hgo
    cases op with
    | ret =>
      obtain ⟨hframes, rfl⟩ := back_eq_halt (s := behind s) (Except.ok.inj ht)
      exact .inr ⟨hframes, .inl ⟨ho, rfl⟩⟩
    | retVoid =>
      obtain ⟨hframes, rfl⟩ := back_eq_halt (s := behind s) (Except.ok.inj ht)
      exact .inr ⟨hframes, .inr ⟨ho, rfl⟩⟩
    | jump target label => cases target <;> cases ht
    | jumpIfFalse target label =>
      rw [step, State.pop] at ht
      split at ht
      next v stack hpop =>
        change (if v.truthy then _ else _) = _ at ht
        split at ht
        · cases ht
        · cases target <;> cases ht
      · cases ht
    | call target name =>
      cases target with
      | address entry =>
        rw [step] at ht
        split at ht <;> cases ht
      | _ => exact absurd rfl hstays
    | _ => exact absurd rfl hstays

/-- The state that a run without a fault leaves behind is its last one, or the one behind a return. -/
theorem Ends.eq_or_eq_behind {v : Option Value} (h : m.Ends s (.ok (v, t))) : t = s ∨ t = behind s := by
  rcases h.cases_ok with ho | ⟨hframes, ⟨ho, -⟩ | ⟨ho, -⟩⟩
  · cases (Ends.off ho).det h
    exact .inl rfl
  · cases (Ends.ret ⟨rfl, rfl, hframes, rfl⟩ ho).det h
    exact .inr rfl
  · cases (Ends.retVoid ⟨rfl, rfl, hframes, rfl⟩ ho).det h
    exact .inr rfl

/-! ### Runs inside of an activation -/

/-- From `s` the machine comes to `t` in the same activation: it takes steps that keep the open calls,
and calls that come back. -/
inductive Goes (m : Machine) : State → State → Prop
  | refl (s : State) : Goes m s s
  | step {s t u : State} : Goes m s t → m.Step t u → u.frames = t.frames → Goes m s u
  | call {s t a b u : State} : Goes m s t → m.Step t a → a.frames = t.frames.push (t.ip + 1) →
      Goes m a b → m.Step b u → u.frames = t.frames → u.ip = t.ip + 1 → Goes m s u

/-- In a run from `s₀`, the innermost activation in which `t` stands was opened in `s`. -/
inductive Open (m : Machine) (s₀ : State) : State → State → Prop
  | start {t : State} : m.Goes s₀ t → Open m s₀ s₀ t
  | call {a c s t : State} : Open m s₀ a c → m.Step c s → s.frames = c.frames.push (c.ip + 1) →
      m.Goes s t → Open m s₀ s t

/-- A run from `s` to `t` in which the calls that are open in `F` stay open. -/
inductive Within (m : Machine) (F : Stack Nat) (s : State) : State → Prop
  | refl : s.Above F → Within m F s s
  | tail {t u : State} : Within m F s t → m.Step t u → u.Above F → Within m F s u

theorem Goes.frames_eq (h : m.Goes s t) : t.frames = s.frames := by
  induction h with
  | refl => rfl
  | step _ _ hframes ih => exact hframes.trans ih
  | call _ _ _ _ _ hframes _ ih _ => exact hframes.trans ih

theorem Goes.steps (h : m.Goes s t) : ∃ n, m.Steps n s t := by
  induction h with
  | refl => exact ⟨0, .refl _⟩
  | step _ hst _ ih =>
    obtain ⟨n, h⟩ := ih
    exact ⟨n + 1, h.tail hst⟩
  | call _ hin _ _ hout _ _ ih ih' =>
    obtain ⟨n, h⟩ := ih
    obtain ⟨k, h'⟩ := ih'
    exact ⟨n + 1 + k + 1, ((h.tail hin).trans h').tail hout⟩

theorem Goes.trans (h : m.Goes s t) (h' : m.Goes t u) : m.Goes s u := by
  induction h' with
  | refl => exact h
  | step _ hst hframes ih => exact .step (ih h) hst hframes
  | call _ hin hpush hgo hout hframes hip ih _ => exact .call (ih h) hin hpush hgo hout hframes hip

theorem Open.steps {s₀ : State} (h : m.Open s₀ s t) : ∃ n, m.Steps n s₀ t := by
  induction h with
  | start h => exact h.steps
  | call _ hin _ hgo ih =>
    obtain ⟨n, h⟩ := ih
    obtain ⟨k, h'⟩ := hgo.steps
    exact ⟨n + 1 + k, (h.tail hin).trans h'⟩

theorem Open.goes {s₀ : State} (h : m.Open s₀ s t) : m.Goes s t := by
  cases h with
  | start h => exact h
  | call _ _ _ h => exact h

theorem Open.extend {s₀ : State} (h : m.Open s₀ s t) (h' : m.Goes t u) : m.Open s₀ s u := by
  cases h with
  | start h => exact .start (h.trans h')
  | call ho hin hpush h => exact .call ho hin hpush (h.trans h')

theorem Open.above {s₀ : State} (h : m.Open s₀ s t) : t.Above s₀.frames := by
  induction h with
  | start h => exact ⟨[], by rw [h.frames_eq]; rfl⟩
  | call _ _ hpush hgo ih => exact (ih.open hpush).keep hgo.frames_eq

/-- A state with the open calls of the start is in the activation of the start. -/
theorem Open.goes_of_frames {s₀ : State} (h : m.Open s₀ s t) (hframes : t.frames = s₀.frames) :
    m.Goes s₀ t := by
  cases h with
  | start h => exact h
  | call ho _ hpush hgo =>
    have hlen := ho.above.length_le
    rw [← hframes, hgo.frames_eq, hpush, Stack.items_push, List.length_cons] at hlen
    omega

/-- A step leads to the activation that it opens, or goes on in the innermost one or in the one
around it. -/
theorem Open.step {s₀ : State} (h : m.Open s₀ s t) (hst : m.Step t u) (hu : u.Above s₀.frames) :
    ∃ a, m.Open s₀ a u := by
  rcases hst.frames_cases with hkeep | hpush | hpop
  · exact ⟨s, h.extend (.step (.refl t) hst hkeep)⟩
  · exact ⟨u, .call h hst hpush (.refl u)⟩
  · cases h with
    | start hgo =>
      have hlen := hu.length_le
      rw [← hgo.frames_eq, hpop, Stack.items_push, List.length_cons] at hlen
      omega
    | call ho hin hpush hgo =>
      rw [hgo.frames_eq, hpush] at hpop
      obtain ⟨hframes, hip⟩ := Stack.push_inj hpop
      exact ⟨_, ho.extend (.call (.refl _) hin hpush hgo hst hframes.symm hip.symm)⟩

theorem Within.exists_open (h : m.Within s.frames s t) : ∃ a, m.Open s a t := by
  induction h with
  | refl => exact ⟨s, .start (.refl s)⟩
  | tail _ hst hu ih =>
    obtain ⟨a, ho⟩ := ih
    exact ho.step hst hu

theorem Within.goes (h : m.Within s.frames s t) (hframes : t.frames = s.frames) : m.Goes s t :=
  let ⟨_, ho⟩ := h.exists_open
  ho.goes_of_frames hframes

/-- Every state of a run that starts without an open call is in some activation. -/
theorem Steps.exists_open {n : Nat} {s₀ : State} (h : m.Steps n s₀ t) (hframes : s₀.frames = .empty) :
    ∃ a, m.Open s₀ a t := by
  have habove (u : State) : u.Above s₀.frames := ⟨u.frames.items, by simp [hframes]⟩
  refine Steps.keeps (P := fun t => ∃ a, m.Open s₀ a t) ?_ h ⟨s₀, .start (.refl s₀)⟩
  rintro t u ⟨a, ho⟩ hst
  exact ho.step hst (habove u)

/-- A step that closes an activation closes the innermost one. -/
theorem Within.goes_of_close (h : m.Within s.frames s t) (hst : m.Step t u)
    (hpush : s.frames = u.frames.push a) : m.Goes s t ∧ u.ip = a := by
  have habove : t.Above s.frames := by
    cases h with
    | refl h => exact h
    | tail _ _ h => exact h
  have hlen := habove.length_le
  rw [hpush, Stack.items_push, List.length_cons] at hlen
  rcases hst.frames_cases with hkeep | hpush' | hpop
  · rw [hkeep] at hlen
    omega
  · rw [hpush', Stack.items_push, List.length_cons] at hlen
    omega
  · have hframes : t.frames = s.frames := by
      refine habove.eq_of_length_le ?_
      rw [hpop, hpush, Stack.items_push, Stack.items_push]
      exact Nat.le_refl _
    rw [hframes, hpush] at hpop
    exact ⟨h.goes hframes, (Stack.push_inj hpop).2.symm⟩

end Machine

end Labyrinth
