import Labyrinth.Proofs.Accepted
import Labyrinth.Proofs.Machine.Activations
import Labyrinth.Proofs.Machine.Effect
import Labyrinth.Proofs.World.Grid

/-!
# Runs stay in the grid and within their limits

`World.Grounded maze w`: the agent of `w` stands in a grid of the size of `maze`, where the last entry of
the trace says, and so does every entry of the trace. `State.Regular` adds the limits of the stacks and of
the places at which calls go on. Every instruction keeps both, whatever code it stands in
(`State.Regular.effect`), so they hold throughout a run (`Code.reached_regular`).
-/

namespace Labyrinth

/-- The agent and its trace are in a grid of the size of `maze`. -/
structure World.Grounded (maze : Maze) (w : World) : Prop where
  width_eq : w.maze.width = maze.width
  height_eq : w.maze.height = maze.height
  agent : w.agent.Within maze
  trace : ∀ a ∈ w.trace, a.Within maze
  last : ∃ a, w.trace.back? = some a ∧ a.x = w.agent.x ∧ a.y = w.agent.y

namespace World.Grounded

variable {maze : Maze} {w w' : World}

theorem assign (h : w.Grounded maze) (name : String) (v : Value) : (w.assign name v).Grounded maze :=
  ⟨h.width_eq, h.height_eq, h.agent, h.trace, h.last⟩

theorem print (h : w.Grounded maze) (v : Value) : (w.print v).Grounded maze :=
  ⟨h.width_eq, h.height_eq, h.agent, h.trace, h.last⟩

theorem prints (h : w.Grounded maze) (vs : List Value) : (vs.foldl World.print w).Grounded maze := by
  induction vs generalizing w with
  | nil => exact h
  | cons v vs ih => exact ih (h.print v)

theorem turn (h : w.Grounded maze) (how : Heading → Heading) : (w.turn how).Grounded maze :=
  ⟨h.width_eq, h.height_eq, h.agent.turn how, h.trace, h.last⟩

theorem moveTo (h : w.Grounded maze) {x y : Int64} (hxy : w.maze.contains x.toInt y.toInt) :
    (w.moveTo x y).Grounded maze := by
  have hagent : (w.agent.moveTo x y).Within maze :=
    (Agent.Within.moveTo w.agent hxy).congr h.width_eq.symm h.height_eq.symm
  constructor
  case width_eq => exact h.width_eq
  case height_eq => exact h.height_eq
  case agent => exact hagent
  case trace =>
    intro a ha
    rcases Array.mem_push.mp ha with ha | rfl
    · exact h.trace a ha
    · exact hagent
  case last => exact ⟨w.agent.moveTo x y, Array.back?_push, rfl, rfl⟩

theorem set (h : w.Grounded maze) (x y : Int) (c : Cell) :
    { w with maze := w.maze.set x y c }.Grounded maze :=
  ⟨by simp [h.width_eq], by simp [h.height_eq], h.agent, h.trace, h.last⟩

/-- The agent only steps onto a cell that it has looked at. -/
theorem forward (h : w.Grounded maze) {c : Cell} (hc : w.cellAhead = .ok c) :
    w.forward.Grounded maze := by
  have hahead : w.maze.contains w.agent.ahead.1.toInt w.agent.ahead.2.toInt := by
    rw [Maze.contains, World.cellAhead_eq_ok_iff.mp hc, Option.isSome_some]
  refine (h.set w.agent.x.toInt w.agent.y.toInt .free).moveTo ?_
  rwa [Maze.contains_set]

theorem perform (h : w.Grounded maze) {action : Action} {args : List Value} {v : Option Value}
    (hp : w.perform action args = .ok (v, w')) : w'.Grounded maze := by
  unfold World.perform at hp
  split at hp
  · obtain ⟨c, hc, hp⟩ := Except.bind_eq_ok.mp hp
    split at hp
    · cases hp; exact h
    · cases hp; exact h.forward hc
  · cases hp; exact h.turn _
  · cases hp; exact h.turn _
  · obtain ⟨c, -, hp⟩ := Except.bind_eq_ok.mp hp
    cases hp; exact h
  · cases hp; exact h
  · split at hp
    · next hxy => cases hp; exact h.moveTo hxy
    · cases hp
  · cases hp
  · cases hp
  · cases hp; exact h
  · cases hp; exact h.prints _

end World.Grounded

/-- A state of a run in `maze` of `size` instructions, with stacks of at most `limit` entries. -/
structure State.Regular (maze : Maze) (size limit : Nat) (s : State) : Prop extends
    s.toWorld.Grounded maze where
  stack_le : s.stack.size ≤ limit
  frames_le : s.frames.size ≤ limit
  returns : ∀ b ∈ s.frames.items, b ≤ size

open Machine

namespace State.Regular

variable {maze : Maze} {m : Machine} {s t : State} {op : Op} {ip : Nat} {S : List Value} {F : Stack Nat}
  {w : World} {limit size : Nat}

/-- What is left to show of a state when its parts are known. -/
theorem of_at (ht : t.At ip S F w) (hw : w.Grounded maze) (hS : S.length ≤ limit)
    (hF : F.size ≤ limit) (hreturns : ∀ b ∈ F.items, b ≤ size) : t.Regular maze size limit where
  toGrounded := ht.world_eq ▸ hw
  stack_le := by rw [t.stack.size_eq, ht.items_eq]; exact hS
  frames_le := by rw [ht.frames_eq]; exact hF
  returns := by rw [ht.frames_eq]; exact hreturns

/-- A state with the same open calls. -/
theorem same (h : s.Regular maze size limit) (ht : t.At ip S s.frames w) (hw : w.Grounded maze)
    (hS : S.length ≤ limit) : t.Regular maze size limit :=
  of_at ht hw hS h.frames_le h.returns

/-- Every instruction keeps a state regular. -/
theorem effect (h : s.Regular maze size m.maxStack) (hip : s.ip < size) (he : Effect m s op t) :
    t.Regular maze size m.maxStack := by
  have hstack : s.stack.items.length ≤ m.maxStack := s.stack.size_eq ▸ h.stack_le
  have hroom (hlt : s.stack.size < m.maxStack) (v : Value) :
      (v :: s.stack.items).length ≤ m.maxStack := by
    rw [s.stack.size_eq] at hlt
    exact hlt
  cases he with
  | push hlt ht => exact h.same ht h.toGrounded (hroom hlt _)
  | load _ hlt ht => exact h.same ht h.toGrounded (hroom hlt _)
  | store hs ht =>
    rw [hs] at hstack
    exact h.same ht (h.toGrounded.assign _ _) (Nat.le_of_succ_le hstack)
  | binary hs _ ht =>
    rw [hs] at hstack
    exact h.same ht h.toGrounded (Nat.le_of_succ_le hstack)
  | neg hs ht | not hs ht | toFloat hs ht =>
    rw [hs] at hstack
    exact h.same ht h.toGrounded hstack
  | skip ht | jump ht => exact h.same ht h.toGrounded hstack
  | pass hs _ ht | branch hs _ ht =>
    rw [hs] at hstack
    exact h.same ht h.toGrounded (Nat.le_of_succ_le hstack)
  | @act _ _ args v w S _ hs _ hp hlt ht =>
    refine h.same ht (h.toGrounded.perform hp) ?_
    rw [hs, List.length_append] at hstack
    cases v with
    | none => exact Nat.le_trans (Nat.le_add_left _ _) hstack
    | some v => exact hlt rfl
  | enter hlt ht =>
    refine of_at ht h.toGrounded hstack hlt ?_
    rw [Stack.items_push, List.forall_mem_cons]
    exact ⟨hip, h.returns⟩
  | @ret b F _ hF ht | @retVoid b F _ hF ht =>
    have hframes := h.frames_le
    have hreturns := h.returns
    rw [hF] at hframes hreturns
    rw [Stack.items_push, List.forall_mem_cons] at hreturns
    exact of_at ht h.toGrounded hstack (Nat.le_of_succ_le hframes) hreturns.2

theorem step (h : s.Regular maze m.ops.size m.maxStack) (hst : m.Step s t) :
    t.Regular maze m.ops.size m.maxStack := by
  obtain ⟨op, ho, he⟩ := hst.effect
  obtain ⟨hip, -⟩ := Array.getElem?_eq_some_iff.mp ho
  exact h.effect hip he

theorem behind (h : s.Regular maze size limit) : (behind s).Regular maze size limit :=
  ⟨h.toGrounded, h.stack_le, h.frames_le, h.returns⟩

theorem ends (h : s.Regular maze size limit) {v : Option Value} (he : m.Ends s (.ok (v, t))) :
    t.Regular maze size limit := by
  rcases he.eq_or_eq_behind with rfl | rfl
  · exact h
  · exact h.behind

end State.Regular

namespace Code

variable {code : Code} {maze : Maze} {settings : Settings} {m : Machine} {s₀ : State}

theorem within_of_startAgent {agent : Agent} (h : startAgent maze settings = .ok agent) :
    agent.Within maze := by
  -- Wherever the agent comes from, its place is looked at last.
  have hplace {a : Agent} (h : (if maze.contains a.x.toInt a.y.toInt then pure a
      else throw (.outOfBounds a.x a.y) : Except Fault Agent) = .ok agent) : agent.Within maze := by
    split at h
    · next hin => cases h; exact Agent.within_iff.mpr hin
    · cases h
  unfold startAgent at h
  simp only at h
  split at h
  · split at h
    · exact hplace h
    · cases h
  · split at h
    · exact hplace h
    · cases h

/-- The stacks are empty at the start, whatever they may hold. -/
theorem regular_of_load (hload : load code maze settings = .ok (m, s₀)) (size limit : Nat) :
    s₀.Regular maze size limit := by
  obtain ⟨agent, hagent, -, -, hstack, hframes, hworld⟩ := load_eq_ok hload
  have hin := within_of_startAgent hagent
  have hgrounded : s₀.toWorld.Grounded maze := by
    rw [hworld]
    refine ⟨rfl, rfl, hin, fun a ha => ?_, agent, rfl, rfl, rfl⟩
    obtain rfl : a = agent := by simpa using ha
    exact hin
  refine State.Regular.of_at ⟨rfl, rfl, rfl, rfl⟩ hgrounded ?_ ?_ ?_
  · simp [hstack]
  · simp [hframes, Stack.empty]
  · simp [hframes]

/-- In every state of a run of any code, the agent and its trace are in the grid, which keeps its size;
the trace ends where the agent stands; the stacks hold no more than they may; and every call goes on
inside the code or at its end. The cell ahead is computed without wrapping around, unless the grid is
larger than integers of 64 bits count. -/
theorem reached_regular (hload : load code maze settings = .ok (m, s₀)) {n : Nat} {s : State}
    (hs : m.Steps n s₀ s) :
    (s.Regular maze code.length settings.maxStack.toNat ∧
      ∀ v t, m.Ends s (.ok (v, t)) → t.Regular maze code.length settings.maxStack.toNat) ∧
    (maze.Countable →
      s.agent.ahead.1.toInt = s.agent.x.toInt + s.agent.heading.dx.toInt ∧
      s.agent.ahead.2.toInt = s.agent.y.toInt + s.agent.heading.dy.toInt) := by
  have hreg : s.Regular maze code.length settings.maxStack.toNat := by
    have hreg := hs.keeps (fun s t h hst => State.Regular.step h hst) (regular_of_load hload _ _)
    obtain ⟨-, -, -, rfl, -⟩ := load_eq_ok hload
    have hsize : code.link.size = code.length := by simp [link]
    rwa [hsize] at hreg
  refine ⟨⟨hreg, fun v t he => hreg.ends he⟩, fun hmaze => hreg.agent.ahead_toInt hmaze⟩

/-- Code that calls a function, in which the agent turns and goes on. -/
def turning : Code :=
  [.func "go" 0, .call "turn_left" 0, .call "move_forward" 0, .ret, .func "main" 0, .call "go" 0, .ret]

theorem reached_regular_turning : ∃ m s₀ s, load turning .sample {} = .ok (m, s₀) ∧ m.Steps 3 s₀ s ∧
    s.trace.size = 2 ∧ s.frames.size = 1 ∧ s.Regular .sample 7 4096 ∧ Maze.sample.Countable ∧
    s.agent.ahead.1.toInt = s.agent.x.toInt + s.agent.heading.dx.toInt := by
  obtain ⟨⟨m, s₀⟩, hload, h⟩ := Except.any_toOption (x := load turning .sample {}) (q := fun x =>
    (x.1.next? x.2).any fun s => (x.1.next? s).any fun s => (x.1.next? s).any fun s =>
      s.trace.size = 2 && s.frames.size = 1) (by decide)
  obtain ⟨s₁, h₁, h⟩ := (Option.any_eq_true _ _).mp h
  obtain ⟨s₂, h₂, h⟩ := (Option.any_eq_true _ _).mp h
  obtain ⟨s, h₃, h⟩ := (Option.any_eq_true _ _).mp h
  obtain ⟨htrace, hframes⟩ := Bool.and_eq_true_iff.mp h
  have hsteps : m.Steps 3 s₀ s :=
    .head (step_of_next? h₁) (.head (step_of_next? h₂) (.single (step_of_next? h₃)))
  have hmaze : Maze.sample.Countable := ⟨by decide, by decide⟩
  obtain ⟨⟨hreg, -⟩, hahead⟩ := reached_regular hload hsteps
  exact ⟨m, s₀, s, hload, hsteps, of_decide_eq_true htrace, of_decide_eq_true hframes, hreg, hmaze,
    (hahead hmaze).1⟩

end Code

end Labyrinth
