import Mathlib.Data.List.Chain
import Labyrinth.Proofs.Grounded
import Labyrinth.Proofs.Machine.Log

/-!
# The trace is a walk

What an instruction does to the maze, to the place of the agent and to the trace is one of four things
(`Dispatch.Treads`): a call of `move_forward` moves the agent or bumps into a wall, a call of `teleport`
sets it down elsewhere, and any other instruction leaves all three as they are. So the trace is the start
and an entry for each move and each teleport (`Machine.Path.trace_eq`). Without teleports the agent never
stands on a wall of the maze, and since only cells that it leaves are overwritten, the walls stay
(`World.Legal`).
-/

namespace Labyrinth

/-- From `a` it is one step along the heading of `b` to `b`. -/
def Agent.StepsTo (a b : Agent) : Prop :=
  b.x.toInt = a.x.toInt + b.heading.dx.toInt ∧ b.y.toInt = a.y.toInt + b.heading.dy.toInt

/-- A maze with a wall below its start. -/
def Maze.walled : Maze where
  rows := #[#[.start, .goal], #[.wall, .free]]
  width := 2
  width_pos := Nat.two_pos
  height_pos := by decide
  size_row := by decide

open Machine

namespace Dispatch

/-- Whether the instruction moves the agent: a call of `move_forward` that leaves 1. -/
def moves (d : Dispatch) : Bool :=
  d.acts .moveForward && d.leaves 1

/-- The entry of the trace that is due to an instruction. -/
def arrival? (d : Dispatch) : Option Agent :=
  if d.moves || d.acts .teleport then d.after?.map (·.agent) else none

/-- The agent goes one step along its heading onto a cell that is no wall, and this is in the trace. -/
structure Advances (d : Dispatch) (t : State) (trace : List Agent) : Prop where
  items_eq : t.stack.items = .int 1 :: d.before.stack.items
  trace_eq : t.trace = d.before.trace.push t.agent
  reported : t.trace.toList <+: trace
  stepsTo : ∃ a, d.before.trace.back? = some a ∧ a.StepsTo t.agent
  passable : ∃ c, d.before.maze.get? t.agent.x.toInt t.agent.y.toInt = some c ∧ c ≠ .wall

/-- The agent, the maze and the trace stay as they are. -/
structure Stays (d : Dispatch) (t : State) : Prop where
  items_eq : t.stack.items = .int 0 :: d.before.stack.items
  agent_eq : t.agent = d.before.agent
  maze_eq : t.maze = d.before.maze
  trace_eq : t.trace = d.before.trace

/-- What an instruction behind which the state is `t` does to the maze, the place of the agent and the
trace. -/
inductive Treads (d : Dispatch) (t : State) : Prop
  | move {c : Cell} : d.moves → d.before.cellAhead = .ok c → c ≠ .wall →
      t.stack.items = .int 1 :: d.before.stack.items → t.toWorld = d.before.forward → Treads d t
  | bump : d.moves = false → d.acts .moveForward → d.before.cellAhead = .ok .wall →
      t.stack.items = .int 0 :: d.before.stack.items → t.toWorld = d.before.toWorld → Treads d t
  | leap {x y : Int64} : d.acts .teleport → d.before.maze.contains x.toInt y.toInt →
      t.toWorld = d.before.moveTo x y → Treads d t
  | rest : d.acts .moveForward = false → d.acts .teleport = false → t.maze = d.before.maze →
      t.trace = d.before.trace → t.agent.x = d.before.agent.x → t.agent.y = d.before.agent.y →
      Treads d t

variable {m : Machine} {s t : State} {op : Op} {d : Dispatch} {a b : Action} {n k : Int64}
  {S : List Value} {maze : Maze}

/-- A call is of one built-in. -/
theorem acts_inj (h : d.acts a) (h' : d.acts b) : a = b := by
  unfold acts at h
  split at h
  · next hop =>
    rw [acts, hop] at h'
    exact (of_decide_eq_true h).symm.trans (of_decide_eq_true h')
  · cases h

theorem acts_eq_false (h : d.acts a) (hne : a ≠ b) : d.acts b = false :=
  Bool.eq_false_iff.mpr fun h' => hne (acts_inj h h')

theorem acts_of_moves (h : d.moves) : d.acts .moveForward :=
  (Bool.and_eq_true_iff.mp h).1

theorem moves_eq_false (h : d.acts .moveForward = false) : d.moves = false := by
  rw [moves, h, Bool.false_and]

theorem leaves_eq (ha : d.after? = some t) (hs : t.stack.items = .int n :: S) :
    d.leaves k = decide (n = k) := by
  rw [leaves, ha, Option.bind_some, Stack.top?, hs, List.head?_cons]

/-- Every instruction does one of these things. -/
theorem treads (h : m.take d.before d.op = .ok (.state t)) (ha : d.after? = some t) : d.Treads t := by
  obtain ⟨op, s, after?⟩ := d
  obtain rfl : after? = some t := ha
  -- An instruction apart from the two that move the agent has to leave the rest of the world alone.
  have hrest {ip S F w} (ht : t.At ip S F w) (hw : w.maze = s.maze ∧ w.trace = s.trace ∧
      w.agent.x = s.agent.x ∧ w.agent.y = s.agent.y) (h₁ : acts .moveForward ⟨op, s, some t⟩ = false)
      (h₂ : acts .teleport ⟨op, s, some t⟩ = false) : Treads ⟨op, s, some t⟩ t := by
    obtain ⟨-, -, -, rfl⟩ := ht
    obtain ⟨hmaze, htrace, hx, hy⟩ := hw
    exact .rest h₁ h₂ hmaze htrace hx hy
  have hsame : s.maze = s.maze ∧ s.trace = s.trace ∧ s.agent.x = s.agent.x ∧ s.agent.y = s.agent.y :=
    ⟨rfl, rfl, rfl, rfl⟩
  cases take_effect h with
  | push _ ht | load _ _ ht | store _ ht | binary _ _ ht | neg _ ht | not _ ht | toFloat _ ht | skip ht
  | jump ht | pass _ _ ht | branch _ _ ht | enter _ ht | ret _ ht | retVoid _ ht =>
    exact hrest ht hsame rfl rfl
  | @act action name args v w S _ hs hl hp _ ht =>
    cases action with
    | moveForward =>
      obtain rfl := List.length_eq_zero_iff.mp hl
      obtain ⟨c, hc, hp⟩ := Except.bind_eq_ok.mp hp
      have hitems := ht.items_eq
      rw [← show s.stack.items = S from hs] at hitems
      split at hp
      · next hwall =>
        cases hp
        exact .bump (leaves_eq rfl hitems) rfl (hwall ▸ hc) hitems ht.world_eq
      · next hwall =>
        cases hp
        exact .move (leaves_eq rfl hitems) hc hwall hitems ht.world_eq
    | teleport =>
      obtain ⟨y, x, rfl⟩ := List.length_eq_two.mp hl
      rcases x with x | x
      · rcases y with y | y
        · rw [World.perform] at hp
          split at hp
          · next hin => cases hp; exact .leap rfl hin ht.world_eq
          · cases hp
        · cases hp
      · cases y <;> cases hp
    | turnLeft | turnRight | completed => cases hp; exact hrest ht hsame rfl rfl
    | isWall =>
      obtain ⟨c, -, hp⟩ := Except.bind_eq_ok.mp hp
      cases hp
      exact hrest ht hsame rfl rfl
    | print =>
      obtain ⟨x, rfl⟩ := List.length_eq_one_iff.mp hl
      cases hp
      exact hrest ht hsame rfl rfl

namespace Treads

theorem trace_eq (h : d.Treads t) (ha : d.after? = some t) :
    t.trace.toList = d.before.trace.toList ++ d.arrival?.toList := by
  rcases h with
    ⟨hmoves, -, -, -, hw⟩ | ⟨hmoves, hacts, -, -, hw⟩ | ⟨hacts, -, hw⟩ | ⟨hacts, hacts', -, htrace, -, -⟩
  · simp [arrival?, hmoves, ha, hw, World.forward, World.moveTo]
  · simp [arrival?, hmoves, acts_eq_false hacts (b := .teleport) nofun, hw]
  · simp [arrival?, hacts, ha, hw, World.moveTo]
  · simp [arrival?, moves_eq_false hacts, hacts', htrace]

theorem length_arrival (h : d.Treads t) (ha : d.after? = some t) :
    d.arrival?.toList.length = (if d.moves then 1 else 0) + if d.acts .teleport then 1 else 0 := by
  rcases h with
    ⟨hmoves, -, -, -, -⟩ | ⟨hmoves, hacts, -, -, -⟩ | ⟨hacts, -, -⟩ | ⟨hacts, hacts', -, -, -, -⟩
  · simp [arrival?, hmoves, ha, acts_eq_false (acts_of_moves hmoves) (b := .teleport) nofun]
  · simp [arrival?, hmoves, acts_eq_false hacts (b := .teleport) nofun]
  · simp [arrival?, hacts, ha, moves_eq_false (acts_eq_false hacts nofun)]
  · simp [arrival?, moves_eq_false hacts, hacts']

end Treads

end Dispatch

namespace World

variable {maze : Maze} {w : World} {c : Cell}

/-- A step forward is not across the edge of the grid, where places would wrap around. -/
theorem Grounded.stepsTo_forward (h : w.Grounded maze) (hc : w.cellAhead = .ok c) :
    ∃ a, w.trace.back? = some a ∧ a.StepsTo w.forward.agent := by
  obtain ⟨a, ha, hx, hy⟩ := h.last
  have hin : w.forward.agent.Within maze := (h.forward hc).agent
  have hahead := Agent.ahead_toInt_of_nonneg h.agent.column.1 h.agent.row.1 hin.column.1 hin.row.1
  refine ⟨a, ha, ?_⟩
  unfold Agent.StepsTo
  rw [hx, hy]
  exact hahead

/-- The walls are those of `maze`, and the trace keeps off them and goes on step by step. -/
structure Legal (maze : Maze) (w : World) : Prop where
  walls : ∀ x y, w.maze.get? x y = some .wall ↔ maze.get? x y = some .wall
  passable : ∀ a ∈ w.trace, maze.get? a.x.toInt a.y.toInt ≠ some .wall
  chain : w.trace.toList.IsChain Agent.StepsTo

/-- A cell that is left is no wall, so that it may become free. -/
theorem Legal.forward (h : w.Legal maze) (hw : w.Grounded maze) (hc : w.cellAhead = .ok c)
    (hwall : c ≠ .wall) : w.forward.Legal maze := by
  obtain ⟨a, ha, hsteps⟩ := hw.stepsTo_forward hc
  have hleft : maze.get? w.agent.x.toInt w.agent.y.toInt ≠ some .wall := by
    obtain ⟨b, hb, hx, hy⟩ := hw.last
    rw [← hx, ← hy]
    exact h.passable b (Array.mem_of_back? hb)
  constructor
  case walls =>
    intro x y
    show (w.maze.set w.agent.x.toInt w.agent.y.toInt .free).get? x y = _ ↔ _
    rw [Maze.get?_set]
    split
    · next hplace =>
      obtain ⟨⟨rfl, rfl⟩, -⟩ := hplace
      exact ⟨nofun, fun h => absurd h hleft⟩
    · exact h.walls x y
  case passable =>
    intro b hb
    rcases Array.mem_push.mp hb with hb | rfl
    · exact h.passable b hb
    · intro hahead
      have hcell := World.cellAhead_eq_ok_iff.mp hc
      exact hwall (Option.some.inj (hcell.symm.trans ((h.walls _ _).mpr hahead)))
  case chain =>
    show (w.trace.push w.forward.agent).toList.IsChain _
    rw [Array.toList_push]
    refine List.isChain_append.mpr ⟨h.chain, List.isChain_singleton _, ?_⟩
    intro b hb b' hb'
    obtain rfl : w.forward.agent = b' := Option.some.inj hb'
    rw [Array.getLast?_toList, ha] at hb
    obtain rfl : a = b := Option.some.inj hb
    exact hsteps

end World

namespace Machine.Path

variable {m : Machine} {s t u : State} {ds : List Dispatch} {d : Dispatch} {maze : Maze}

theorem trace_eq (h : m.Path s ds t) :
    t.trace.toList = s.trace.toList ++ ds.filterMap Dispatch.arrival? := by
  induction h with
  | nil s => rw [List.filterMap_nil, List.append_nil]
  | @cons op s t u ds _ ht _ ih =>
    have htreads := Dispatch.treads (d := ⟨op, s, some t⟩) ht rfl
    rw [ih, htreads.trace_eq rfl, List.append_assoc, List.filterMap_eq_flatMap_toList,
      List.filterMap_eq_flatMap_toList, List.flatMap_cons]

theorem length_arrivals (h : m.Path s ds t) : (ds.filterMap Dispatch.arrival?).length =
    ds.countP Dispatch.moves + ds.countP (Dispatch.acts .teleport) := by
  induction h with
  | nil s => rfl
  | @cons op s t u ds _ ht _ ih =>
    have harrival := (Dispatch.treads (d := ⟨op, s, some t⟩) ht rfl).length_arrival rfl
    rw [List.filterMap_eq_flatMap_toList] at ih ⊢
    rw [List.flatMap_cons, List.length_append, harrival, ih, List.countP_cons, List.countP_cons]
    omega

theorem regular (h : m.Path s ds t) (hs : s.Regular maze m.ops.size m.maxStack) :
    t.Regular maze m.ops.size m.maxStack :=
  h.steps.keeps (fun _ _ h hst => h.step hst) hs

/-- Without teleports, the trace stays legal. -/
theorem legal (h : m.Path s ds t) (hs : s.Regular maze m.ops.size m.maxStack) (hl : s.Legal maze)
    (hno : ∀ d ∈ ds, d.acts .teleport = false) : t.Legal maze := by
  induction h with
  | nil s => exact hl
  | @cons op s t u ds ho ht _ ih =>
    obtain ⟨hd, hno⟩ := List.forall_mem_cons.mp hno
    refine ih (hs.step ⟨op, ho, ht⟩) ?_ hno
    rcases Dispatch.treads (d := ⟨op, s, some t⟩) ht rfl with
      ⟨-, hc, hwall, -, hw⟩ | ⟨-, -, -, -, hw⟩ | ⟨hacts, -, -⟩ | ⟨-, -, hmaze, htrace, -, -⟩
    · rw [hw]
      exact hl.forward hs.toGrounded hc hwall
    · rw [hw]
      exact hl
    · rw [hd] at hacts
      cases hacts
    · obtain ⟨hwalls, hpassable, hchain⟩ := hl
      rw [← hmaze] at hwalls
      rw [← htrace] at hpassable hchain
      exact ⟨hwalls, hpassable, hchain⟩

/-- What a call of `move_forward` does, and that the cell ahead decides it. -/
theorem advances_or_stays (h : m.Path s ds u) (hs : s.Regular maze m.ops.size m.maxStack)
    (hd : d ∈ ds) (hacts : d.acts .moveForward) :
    ∃ t, d.after? = some t ∧ d.before.stack.size < m.maxStack ∧
      ((d.leaves 1 ∧ d.Advances t u.trace.toList) ∨ (d.leaves 0 ∧ d.Stays t)) ∧
      (d.leaves 0 ↔ d.before.cellAhead = .ok .wall) := by
  obtain ⟨ds₁, ds₂, t, h₁, ho, ha, ht, h₂⟩ := h.split hd
  have hreg := h₁.regular hs
  have hroom {v : Value} (hitems : t.stack.items = v :: d.before.stack.items) :
      d.before.stack.size < m.maxStack := by
    have hle := (hreg.step ⟨_, ho, ht⟩).stack_le
    rwa [t.stack.size_eq, hitems, List.length_cons, ← d.before.stack.size_eq] at hle
  refine ⟨t, ha, ?_⟩
  rcases Dispatch.treads ht ha with
    ⟨-, hc, hwall, hitems, hw⟩ | ⟨-, -, hc, hitems, hw⟩ | ⟨hacts', -, -⟩ | ⟨hacts', -, -, -, -, -⟩
  · have hagent : t.agent = d.before.forward.agent := congrArg World.agent hw
    have hadvances : d.Advances t u.trace.toList := by
      constructor
      case items_eq => exact hitems
      case trace_eq => rw [hw]; rfl
      case reported => exact ⟨_, h₂.trace_eq.symm⟩
      case stepsTo => rw [hagent]; exact hreg.toGrounded.stepsTo_forward hc
      case passable => rw [hagent]; exact ⟨_, World.cellAhead_eq_ok_iff.mp hc, hwall⟩
    refine ⟨hroom hitems, .inl ⟨Dispatch.leaves_eq ha hitems, hadvances⟩, ?_⟩
    rw [Dispatch.leaves_eq ha hitems, hc, Except.ok.injEq]
    exact ⟨nofun, fun h => absurd h hwall⟩
  · have hstays : d.Stays t := by
      constructor
      case items_eq => exact hitems
      all_goals rw [hw]
    refine ⟨hroom hitems, .inr ⟨Dispatch.leaves_eq ha hitems, hstays⟩, ?_⟩
    rw [Dispatch.leaves_eq ha hitems]
    exact ⟨fun _ => hc, fun _ => rfl⟩
  · cases Dispatch.acts_inj hacts hacts'
  · rw [hacts'] at hacts
    cases hacts

end Machine.Path

/-- Given room, `is_wall` leaves 1 in front of a wall. -/
theorem Machine.take_isWall {m : Machine} {s : State} (hroom : s.stack.size < m.maxStack) (name : String) :
    (∃ u, m.take s (.call (.action .isWall) name) = .ok (.state u) ∧
      u.stack.items = .int 1 :: s.stack.items) ↔ s.cellAhead = .ok .wall := by
  constructor
  · rintro ⟨u, hu, hitems⟩
    cases take_effect hu with
    | act _ _ hp _ hat =>
      obtain ⟨c, hc, hp⟩ := Except.bind_eq_ok.mp hp
      cases hp
      rw [hat.items_eq] at hitems
      by_cases hwall : c = .wall
      · rw [hc, hwall]
      · rw [decide_eq_false hwall] at hitems
        cases (List.cons.inj hitems).1
  · intro hc
    refine ⟨{ behind s with stack := s.stack.push (.int 1) }, ?_, rfl⟩
    rw [take_eq, step, act, show (behind s).cellAhead = .ok .wall from hc]
    show Next.state <$> m.push (behind s) (.int 1) = _
    rw [push, if_pos (show (behind s).stack.size < m.maxStack from hroom)]
    rfl

namespace Code

variable {code : Code} {maze : Maze} {settings : Settings} {m : Machine} {s₀ : State} {o : Outcome}

/-- The calls of a built-in are the instructions that name it. -/
theorem acts_iff (hload : load code maze settings = .ok (m, s₀)) {d : Dispatch}
    (hop : m.ops[d.before.ip]? = some d.op) {b : Builtin} {action : Action} (hb : b ∈ Builtin.table)
    (hba : b.action = some action) :
    d.acts action ↔ ∃ argc, code[d.before.ip]? = some (.call b.name argc) := by
  obtain ⟨-, -, -, rfl, -⟩ := load_eq_ok hload
  obtain ⟨i, hi, hop⟩ := getElem?_link hop
  rw [hi, Dispatch.acts, hop]
  constructor
  · intro hacts
    cases i with
    | call callee argc =>
      rw [Op.ofInstruction] at hacts
      split at hacts
      next a name hcall =>
        obtain rfl := of_decide_eq_true hacts
        obtain ⟨htarget, -⟩ := Op.call.inj hcall
        obtain ⟨b', hb', rfl, hba'⟩ := exists_builtin_of_target htarget
        have hinj : ∀ b ∈ Builtin.table, ∀ b' ∈ Builtin.table, b.action.isSome →
            b.action = b'.action → b = b' := by decide
        obtain rfl := hinj b hb b' hb' (by rw [hba]; rfl) (hba.trans hba'.symm)
        exact ⟨argc, rfl⟩
      · cases hacts
    | _ => cases hacts
  · rintro ⟨argc, hcall⟩
    obtain rfl := Option.some.inj hcall
    rw [Op.ofInstruction, code.target_action hb hba]
    exact decide_eq_true rfl

/-- Without calls of `teleport` in a code, none is taken. -/
theorem acts_teleport_eq_false (hload : load code maze settings = .ok (m, s₀))
    (hno : ∀ argc, .call "teleport" argc ∉ code) {d : Dispatch} (hop : m.ops[d.before.ip]? = some d.op) :
    d.acts .teleport = false := by
  rw [Bool.eq_false_iff]
  intro hacts
  obtain ⟨b, hb, hname, hba⟩ :
      ∃ b ∈ Builtin.table, b.name = "teleport" ∧ b.action = some .teleport := by decide
  obtain ⟨argc, hcall⟩ := (acts_iff hload hop hb hba).mp hacts
  exact hno argc (hname ▸ List.mem_of_getElem? hcall)

/-- What a finished run adds to the trace. -/
theorem trace_eq_arrivals (hload : load code maze settings = .ok (m, s₀))
    (hrun : code.run maze settings = .ok o) :
    o.trace = s₀.trace.toList ++ (code.log maze settings).filterMap Dispatch.arrival? ∧
      o.trace.length = s₀.trace.size + (code.log maze settings).countP Dispatch.moves +
        (code.log maze settings).countP (Dispatch.acts .teleport) := by
  obtain ⟨ds, last, t, hpath, hlog, hlast, htrace, -, -⟩ := exists_path hload hrun
  have harrivals : last.filterMap Dispatch.arrival? = [] := by
    refine List.filterMap_eq_nil_iff.mpr fun d hd => ?_
    rw [Dispatch.arrival?, (hlast d hd).1, Option.map_none, ite_self]
  have hcount {p : Dispatch → Bool} (hp : ∀ d ∈ last, p d = false) :
      (ds ++ last).countP p = ds.countP p := by
    have hzero : last.countP p = 0 := List.countP_eq_zero.mpr fun d hd => by simp [hp d hd]
    rw [List.countP_append, hzero, Nat.add_zero]
  have hmoves := hcount (p := Dispatch.moves) fun d hd => Dispatch.moves_eq_false ((hlast d hd).2 _)
  have hleaps := hcount (p := Dispatch.acts .teleport) fun d hd => (hlast d hd).2 _
  rw [hlog, List.filterMap_append, harrivals, List.append_nil, hmoves, hleaps, htrace, hpath.trace_eq,
    List.length_append, hpath.length_arrivals, Array.length_toList, Nat.add_assoc]
  exact ⟨rfl, rfl⟩

/-- The calls of a built-in that a finished run takes lead on. -/
theorem exists_path_mem (hload : load code maze settings = .ok (m, s₀))
    (hrun : code.run maze settings = .ok o) :
    ∃ ds t, m.Path s₀ ds t ∧ o.trace = t.trace.toList ∧
      ∀ d ∈ code.log maze settings, ∀ action, d.acts action → d ∈ ds := by
  obtain ⟨ds, last, t, hpath, hlog, hlast, htrace, -, -⟩ := exists_path hload hrun
  refine ⟨ds, t, hpath, htrace, fun d hd action hacts => ?_⟩
  rw [hlog] at hd
  rcases List.mem_append.mp hd with hd | hd
  · exact hd
  · rw [(hlast d hd).2] at hacts
    cases hacts

/-- A finished run without teleports, with a start off the walls, is a walk in the maze. -/
theorem legal_of_run (hload : load code maze settings = .ok (m, s₀))
    (hrun : code.run maze settings = .ok o) (hno : ∀ argc, .call "teleport" argc ∉ code)
    (hstart : maze.get? s₀.agent.x.toInt s₀.agent.y.toInt ≠ some .wall) :
    (∀ a ∈ o.trace, ∃ c, maze.get? a.x.toInt a.y.toInt = some c ∧ c ≠ .wall) ∧
      o.trace.IsChain Agent.StepsTo := by
  obtain ⟨ds, last, t, hpath, -, -, htrace, -, -⟩ := exists_path hload hrun
  have hreg := regular_of_load hload m.ops.size m.maxStack
  have hlegal₀ : s₀.Legal maze := by
    obtain ⟨start, -, -, -, -, -, hworld⟩ := load_eq_ok hload
    rw [hworld] at hstart ⊢
    refine ⟨fun x y => Iff.rfl, fun a ha => ?_, List.isChain_singleton start⟩
    obtain rfl : a = start := by simpa using ha
    exact hstart
  have hlegal : t.Legal maze := by
    refine hpath.legal hreg hlegal₀ fun d hd => ?_
    obtain ⟨_, _, _, _, hop, -⟩ := hpath.split hd
    exact acts_teleport_eq_false hload hno hop
  rw [htrace]
  refine ⟨fun a ha => ?_, hlegal.chain⟩
  have hmem : a ∈ t.trace := Array.mem_toList_iff.mp ha
  have hin := Agent.within_iff.mp ((hpath.regular hreg).trace a hmem)
  obtain ⟨c, hc⟩ := Option.isSome_iff_exists.mp hin
  exact ⟨c, hc, fun hwall => hlegal.passable a hmem (hwall ▸ hc)⟩

/-- The trace of a finished run is a walk. It is the start and what the moves and the teleports add; each
move goes one step onto a cell that is no wall at that moment; and a `move_forward` that is no move changes
nothing, which happens where `is_wall` would leave 1. Without teleports and with a start off the walls, it
is a walk in the maze that the run starts with. -/
theorem trace_walks (hload : load code maze settings = .ok (m, s₀))
    (hrun : code.run maze settings = .ok o) :
    ∃ start, startAgent maze settings = .ok start ∧
      o.trace = start :: (code.log maze settings).filterMap Dispatch.arrival? ∧
      o.trace.length = 1 + (code.log maze settings).countP Dispatch.moves +
        (code.log maze settings).countP (Dispatch.acts .teleport) ∧
      (∀ d ∈ code.log maze settings, d.acts .moveForward → ∃ t, d.after? = some t ∧
        ((d.leaves 1 ∧ d.Advances t o.trace) ∨ (d.leaves 0 ∧ d.Stays t)) ∧
        (d.leaves 0 ↔ ∃ u, m.take d.before (.ofInstruction code (.call "is_wall" 0)) = .ok (.state u) ∧
          u.stack.items = .int 1 :: d.before.stack.items)) ∧
      ((∀ argc, .call "teleport" argc ∉ code) → maze.get? start.x.toInt start.y.toInt ≠ some .wall →
        (∀ a ∈ o.trace, ∃ c, maze.get? a.x.toInt a.y.toInt = some c ∧ c ≠ .wall) ∧
        o.trace.IsChain Agent.StepsTo) := by
  obtain ⟨start, hstart, -, -, -, -, hworld⟩ := load_eq_ok hload
  obtain ⟨htrace, hlength⟩ := trace_eq_arrivals hload hrun
  rw [hworld] at htrace hlength
  refine ⟨start, hstart, htrace, hlength, fun d hd hacts => ?_, fun hno hfree => ?_⟩
  · obtain ⟨ds, t, hpath, htrace, hmem⟩ := exists_path_mem hload hrun
    obtain ⟨u, ha, hroom, hcases, hwall⟩ :=
      hpath.advances_or_stays (regular_of_load hload _ _) (hmem d hd _ hacts) hacts
    exact ⟨u, ha, htrace ▸ hcases, hwall.trans (take_isWall hroom "is_wall").symm⟩
  · have hagent : s₀.agent = start := by rw [hworld]
    exact legal_of_run hload hrun hno (hagent ▸ hfree)

/-- Code in which the agent goes on twice, with a turn between. -/
def bumping : Code :=
  [.func "main" 0, .call "move_forward" 0, .call "turn_left" 0, .call "move_forward" 0, .fin]

/-- In front of a wall, the first of the two steps is none. -/
theorem trace_walks_bumping : ∃ m s₀ o, load bumping .walled { maxSteps := 9 } = .ok (m, s₀) ∧
    bumping.run .walled { maxSteps := 9 } = .ok o ∧ o.trace.length = 2 ∧
    (∃ d ∈ bumping.log .walled { maxSteps := 9 }, ∃ t, d.Stays t ∧
      ∃ u, m.take d.before (.ofInstruction bumping (.call "is_wall" 0)) = .ok (.state u) ∧
        u.stack.items = .int 1 :: d.before.stack.items) ∧
    (∀ a ∈ o.trace, ∃ c, Maze.walled.get? a.x.toInt a.y.toInt = some c ∧ c ≠ .wall) ∧
    o.trace.IsChain Agent.StepsTo := by
  obtain ⟨⟨m, s₀⟩, hload, -⟩ := Except.any_toOption (q := fun _ => true)
    (x := load bumping .walled { maxSteps := 9 }) (by decide)
  obtain ⟨o, hrun, -⟩ := Except.any_toOption (q := fun _ => true)
    (x := bumping.run .walled { maxSteps := 9 }) (by decide)
  obtain ⟨d, hd, hbumps⟩ := List.any_eq_true.mp (show (bumping.log .walled { maxSteps := 9 }).any
    (fun d => d.acts .moveForward && !d.leaves 1) by decide)
  have hmoves : (bumping.log .walled { maxSteps := 9 }).countP Dispatch.moves = 1 := by decide
  have hleaps : (bumping.log .walled { maxSteps := 9 }).countP (Dispatch.acts .teleport) = 0 := by decide
  obtain ⟨start, hstart, -, hlength, hsteps, hlegal⟩ := trace_walks hload hrun
  obtain rfl : (⟨0, 0, .down⟩ : Agent) = start := Except.ok.inj hstart
  refine ⟨m, s₀, o, hload, hrun, by rw [hlength, hmoves, hleaps], ?_,
    hlegal (by simp [bumping]) (by decide)⟩
  obtain ⟨hacts, hbumps⟩ := Bool.and_eq_true_iff.mp hbumps
  obtain ⟨t, -, ⟨hleaves, -⟩ | ⟨hleaves, hstays⟩, hwall⟩ := hsteps d hd hacts
  · rw [hleaves] at hbumps
    cases hbumps
  · exact ⟨d, hd, t, hstays, hwall.mp hleaves⟩

end Code

end Labyrinth
