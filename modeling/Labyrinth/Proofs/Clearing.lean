import Labyrinth.Proofs.Walk

/-!
# What a run does to the maze

A move clears the cell that it leaves, and nothing else changes the maze. So after any instructions the
cells from which a move departed are free, and every other one is as it was (`Machine.Path.get?_eq`).
-/

namespace Labyrinth

open Machine

namespace Dispatch

/-- Where the agent stands in front of an instruction. -/
def place (d : Dispatch) : Int × Int :=
  (d.before.agent.x.toInt, d.before.agent.y.toInt)

/-- The cells from which the moves among instructions depart. -/
def departures (ds : List Dispatch) : List (Int × Int) :=
  (ds.filter moves).map place

variable {d : Dispatch} {ds : List Dispatch} {t : State} {m : Machine} {s : State} {x y : Int}

theorem mem_departures_cons : (x, y) ∈ departures (d :: ds) ↔
    (d.moves ∧ (x, y) = d.place) ∨ (x, y) ∈ departures ds := by
  unfold departures
  by_cases hmoves : d.moves
  · rw [List.filter_cons_of_pos hmoves, List.map_cons, List.mem_cons, and_iff_right hmoves]
  · rw [List.filter_cons_of_neg hmoves, or_iff_right fun h => hmoves h.1]

/-- Only a move changes the maze. -/
theorem Treads.maze_eq (h : d.Treads t) (hmoves : d.moves = false) : t.maze = d.before.maze := by
  rcases h with ⟨hmoves', -, -, -, -⟩ | ⟨-, -, -, -, hw⟩ | ⟨-, -, hw⟩ | ⟨-, -, hmaze, -, -, -⟩
  · rw [hmoves] at hmoves'
    cases hmoves'
  · rw [hw]
  · rw [hw]
    rfl
  · exact hmaze

theorem Treads.get?_eq (h : d.Treads t) (hin : d.before.maze.contains d.place.1 d.place.2) (x y : Int) :
    t.maze.get? x y =
      if d.moves ∧ (x, y) = d.place then some .free else d.before.maze.get? x y := by
  by_cases hmoves : d.moves
  · rcases h with
      ⟨-, -, -, -, hw⟩ | ⟨hmoves', -, -, -, -⟩ | ⟨hacts, -, -⟩ | ⟨hacts, -, -, -, -, -⟩
    · have hmaze : t.maze = d.before.maze.set d.place.1 d.place.2 .free := congrArg World.maze hw
      rw [hmaze, Maze.get?_set]
      simp only [hin, hmoves, true_and, and_true, Prod.ext_iff]
    · cases hmoves.symm.trans hmoves'
    · cases acts_inj (acts_of_moves hmoves) hacts
    · cases (acts_of_moves hmoves).symm.trans hacts
  · rw [if_neg fun h => hmoves h.1, h.maze_eq (Bool.eq_false_iff.mpr hmoves)]

end Dispatch

open Dispatch (departures)

namespace Machine

variable {m : Machine} {s t : State} {ds : List Dispatch} {maze : Maze} {n : Nat}

/-- The maze behind instructions, in terms of the maze in front of them. -/
theorem Path.get?_eq (h : m.Path s ds t) (hs : s.Regular maze m.ops.size m.maxStack) (x y : Int) :
    t.maze.get? x y = if (x, y) ∈ departures ds then some .free else s.maze.get? x y := by
  induction h with
  | nil s => rfl
  | @cons op s t u ds ho ht _ ih =>
    have htreads := Dispatch.treads (d := ⟨op, s, some t⟩) ht rfl
    have hin : s.maze.contains s.agent.x.toInt s.agent.y.toInt :=
      Agent.within_iff.mp (hs.agent.congr hs.width_eq hs.height_eq)
    rw [ih (hs.step ⟨op, ho, ht⟩), htreads.get?_eq hin]
    simp only [Dispatch.mem_departures_cons]
    by_cases hleft : (x, y) ∈ departures ds
    · simp only [hleft, or_true, if_true]
    · simp only [hleft, or_false, if_false]

theorem Steps.exists_path (h : m.Steps n s t) : ∃ ds, m.Path s ds t := by
  induction h with
  | refl s => exact ⟨[], .nil s⟩
  | head hst _ ih =>
    obtain ⟨op, ho, ht⟩ := hst
    obtain ⟨ds, hpath⟩ := ih
    exact ⟨_, .cons ho ht hpath⟩

/-- Cells that are not free have been there from the start. -/
theorem Steps.get?_start (h : m.Steps n s t) (hs : s.Regular maze m.ops.size m.maxStack) {x y : Int}
    {c : Cell} (hfree : c ≠ .free) (hc : t.maze.get? x y = some c) : s.maze.get? x y = some c := by
  obtain ⟨ds, hpath⟩ := h.exists_path
  rw [hpath.get?_eq hs] at hc
  split at hc
  · exact absurd (Option.some.inj hc).symm hfree
  · exact hc

end Machine

namespace Code

variable {code : Code} {maze : Maze} {settings : Settings} {m : Machine} {s₀ : State} {o : Outcome}

/-- Of the instructions that a run takes, only the moves change the maze. -/
theorem maze_eq_of_log (hload : load code maze settings = .ok (m, s₀)) {d : Dispatch}
    (hd : d ∈ code.log maze settings) (hmoves : d.moves = false) {t : State} (ha : d.after? = some t) :
    t.maze = d.before.maze := by
  obtain ⟨r, hran, -⟩ := ran_of_load hload
  exact (Dispatch.treads (hran.take_of_mem hd ha) ha).maze_eq hmoves

/-- The maze that a finished run leaves behind is the one of the start, with the cells free from which a
move departed. -/
theorem maze_of_run (hload : load code maze settings = .ok (m, s₀))
    (hrun : code.run maze settings = .ok o) :
    (∀ x y, o.maze.get? x y =
      if (x, y) ∈ departures (code.log maze settings) then some .free else maze.get? x y) ∧
    ∃ a, o.trace.getLast? = some a ∧
      (o.completed ↔ o.maze.get? a.x.toInt a.y.toInt = some .goal) := by
  obtain ⟨ds, last, t, hpath, hlog, hlast, htrace, hmaze, hcompleted⟩ := exists_path hload hrun
  have hreg := regular_of_load hload m.ops.size m.maxStack
  have hstart : s₀.maze = maze := by
    obtain ⟨_, -, -, -, -, -, hworld⟩ := load_eq_ok hload
    rw [hworld]
  have hdepart : departures (code.log maze settings) = departures ds := by
    have hstays : last.filter Dispatch.moves = [] :=
      List.filter_eq_nil_iff.mpr fun d hd => by simp [Dispatch.moves_eq_false ((hlast d hd).2 _)]
    rw [hlog, departures, List.filter_append, hstays, List.append_nil]
    rfl
  refine ⟨fun x y => ?_, ?_⟩
  · rw [hmaze, hdepart, hpath.get?_eq hreg, hstart]
  · obtain ⟨a, ha, hx, hy⟩ := (hpath.regular hreg).last
    refine ⟨a, by rw [htrace, Array.getLast?_toList, ha], ?_⟩
    rw [hcompleted, hmaze, hx, hy]
    exact decide_eq_true_iff

/-- What a run does to the maze. No instruction but a move changes it, and no wall, start or goal comes
up that was not there at the start. In the end the cells from which a move departed are free, and every
other one is as it was; so the agent is at a goal if there was one where the trace ends, and no move
departed from it. -/
theorem maze_closed_form (hload : load code maze settings = .ok (m, s₀)) :
    (∀ d ∈ code.log maze settings, d.moves = false → ∀ t, d.after? = some t →
      t.maze = d.before.maze) ∧
    (∀ n s, m.Steps n s₀ s → ∀ x y c, c ≠ .free → s.maze.get? x y = some c →
      maze.get? x y = some c) ∧
    ∀ o, code.run maze settings = .ok o →
      (∀ x y, o.maze.get? x y =
        if (x, y) ∈ departures (code.log maze settings) then some .free else maze.get? x y) ∧
      ∃ a, o.trace.getLast? = some a ∧
        (o.completed ↔ maze.get? a.x.toInt a.y.toInt = some .goal ∧
          (a.x.toInt, a.y.toInt) ∉ departures (code.log maze settings)) := by
  refine ⟨fun d hd hmoves t ha => maze_eq_of_log hload hd hmoves ha, ?_, fun o hrun => ?_⟩
  · intro n s hs x y c hfree hc
    have hstart := hs.get?_start (regular_of_load hload _ _) hfree hc
    obtain ⟨_, -, -, -, -, -, hworld⟩ := load_eq_ok hload
    rwa [hworld] at hstart
  · obtain ⟨hmaze, a, ha, hgoal⟩ := maze_of_run hload hrun
    refine ⟨hmaze, a, ha, hgoal.trans ?_⟩
    rw [hmaze]
    split
    · next hleft => exact ⟨nofun, fun h => absurd hleft h.2⟩
    · next hleft => rw [and_iff_left hleft]

theorem maze_closed_form_bumping : ∃ m s₀ o, load bumping .walled { maxSteps := 9 } = .ok (m, s₀) ∧
    bumping.run .walled { maxSteps := 9 } = .ok o ∧ o.maze.get? 0 0 = some .free ∧
    o.maze.get? 0 1 = some .wall ∧ o.completed := by
  obtain ⟨⟨m, s₀⟩, hload, -⟩ := Except.any_toOption (q := fun _ => true)
    (x := load bumping .walled { maxSteps := 9 }) (by decide)
  obtain ⟨o, hrun, hlast⟩ := Except.any_toOption
    (q := fun o => o.trace.getLast? = some ⟨1, 0, .right⟩)
    (x := bumping.run .walled { maxSteps := 9 }) (by decide)
  have hleft : departures (bumping.log .walled { maxSteps := 9 }) = [(0, 0)] := by decide
  obtain ⟨-, -, hend⟩ := maze_closed_form hload
  obtain ⟨hmaze, a, ha, hgoal⟩ := hend o hrun
  obtain rfl : a = ⟨1, 0, .right⟩ := Option.some.inj (ha.symm.trans (of_decide_eq_true hlast))
  rw [hleft] at hmaze hgoal
  exact ⟨m, s₀, o, hload, hrun, (hmaze 0 0).trans (by decide), (hmaze 0 1).trans (by decide),
    hgoal.mpr (by decide)⟩

end Code

end Labyrinth
