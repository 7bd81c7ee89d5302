import Labyrinth.Proofs.Machine.Runs

/-!
# One rule for each instruction

`State.At` describes a state by its place, its stack, its open calls and its world. A rule says what a
run that stands at an instruction needs to go on; `World.perform` is what a built-in does, apart from the
stack.
-/

namespace Labyrinth

namespace Stack

variable {α : Type}

def ofItems (as : List α) : Stack α := ⟨as, as.length, rfl⟩

@[simp] theorem items_ofItems (as : List α) : (ofItems as).items = as := rfl

theorem pop?_of_items {s : Stack α} {a : α} {as : List α} (h : s.items = a :: as) :
    s.pop? = some (a, ofItems as) := pop?_eq_some_iff.mpr h

theorem pop?_push (s : Stack α) (a : α) : (s.push a).pop? = some (a, s) := pop?_eq_some_iff.mpr rfl

theorem push_ne (s : Stack α) (a : α) : s.push a ≠ s := by
  intro he
  have hlen := congrArg (fun s => s.items.length) he
  simp at hlen

theorem push_inj {s t : Stack α} {a b : α} (h : s.push a = t.push b) : s = t ∧ a = b := by
  have h := congrArg items h
  rw [items_push, items_push, List.cons.injEq] at h
  exact ⟨ext h.2, h.1⟩

end Stack

/-- Where a state stands. -/
structure State.At (s : State) (ip : Nat) (items : List Value) (frames : Stack Nat) (world : World) :
    Prop where
  ip_eq : s.ip = ip
  items_eq : s.stack.items = items
  frames_eq : s.frames = frames
  world_eq : s.toWorld = world

/-- The calls that are open in `F` are open. -/
def State.Above (F : Stack Nat) (s : State) : Prop := ∃ calls, s.frames.items = calls ++ F.items

namespace State

variable {s : State} {F : Stack Nat} {a : Nat} {S : List Value} {w : World}

theorem At.above (h : s.At a S F w) : s.Above F := ⟨[], by rw [h.frames_eq]; rfl⟩

theorem Above.of_push (h : s.Above (F.push a)) : s.Above F := by
  obtain ⟨calls, h⟩ := h
  exact ⟨calls ++ [a], by simpa using h⟩

theorem Above.keep {t : State} (h : s.Above F) (hframes : t.frames = s.frames) : t.Above F := by
  unfold Above
  rwa [hframes]

theorem Above.open {t : State} (h : s.Above F) (hframes : t.frames = s.frames.push a) : t.Above F := by
  obtain ⟨calls, h⟩ := h
  exact ⟨a :: calls, by rw [hframes, Stack.items_push, h]; rfl⟩

theorem Above.length_le (h : s.Above F) : F.items.length ≤ s.frames.items.length := by
  obtain ⟨calls, h⟩ := h
  rw [h, List.length_append]
  exact Nat.le_add_left ..

theorem Above.eq_of_length_le (h : s.Above F) (hlen : s.frames.items.length ≤ F.items.length) :
    s.frames = F := by
  obtain ⟨calls, h⟩ := h
  rw [h, List.length_append] at hlen
  obtain rfl : calls = [] := List.eq_nil_of_length_eq_zero (by omega)
  exact Stack.ext h

/-- The open calls are fewer than those above which a state stands. -/
theorem Above.frames_ne (h : s.Above (F.push a)) : s.frames ≠ F := by
  intro he
  have hlen := h.length_le
  rw [he, Stack.items_push, List.length_cons] at hlen
  omega

end State

theorem State.pop_eq {s : State} {v : Value} {vs : List Value} (h : s.stack.items = v :: vs)
    (ip : Nat) : s.pop ip = .ok (v, { s with stack := .ofItems vs }) := by
  rw [pop, Stack.pop?_of_items h]

theorem State.pop_eq_error {s : State} (h : s.stack.items = []) (ip : Nat) :
    s.pop ip = .error (.stackUnderflow ip) := by
  rw [pop, Stack.pop?_eq_none_iff.mpr h]

theorem State.popCoordinate_int {s : State} {n : Int64} {S : List Value}
    (h : s.stack.items = .int n :: S) (ip : Nat) :
    s.popCoordinate ip = .ok (n, { s with stack := .ofItems S }) := by
  rw [popCoordinate, pop_eq h]; rfl

theorem State.popCoordinate_float {s : State} {x : Float} {S : List Value}
    (h : s.stack.items = .float x :: S) (ip : Nat) :
    s.popCoordinate ip = .error (.type (.teleport x)) := by
  rw [popCoordinate, pop_eq h]; rfl

theorem State.with_ofItems {s : State} {S : List Value} (h : s.stack.items = S) :
    { s with stack := .ofItems S } = s := by
  have hs : Stack.ofItems S = s.stack := Stack.ext h.symm
  rw [hs]

/-- The number of values that a built-in takes. -/
def Action.arity : Action → Nat
  | .teleport => 2
  | .print => 1
  | _ => 0

/-- What a built-in does with its arguments. The last argument of `teleport` is the column, and it is
looked at first. -/
def World.perform (w : World) : Action → List Value → Except Fault (Option Value × World)
  | .moveForward, _ => do
    if (← w.cellAhead) = .wall then return (some (.ofBool false), w)
    else return (some (.ofBool true), w.forward)
  | .turnLeft, _ => .ok (none, w.turn Heading.turnedLeft)
  | .turnRight, _ => .ok (none, w.turn Heading.turnedRight)
  | .isWall, _ => do return (some (.ofBool ((← w.cellAhead) = .wall)), w)
  | .completed, _ => .ok (some (.ofBool w.atGoal), w)
  | .teleport, [.int y, .int x] =>
    if w.maze.contains x.toInt y.toInt then .ok (none, w.moveTo x y) else .error (.outOfBounds x y)
  | .teleport, [_, .float x] => .error (.type (.teleport x))
  | .teleport, [.float y, _] => .error (.type (.teleport y))
  | .teleport, _ => .ok (none, w)
  | .print, args => .ok (none, args.foldl print w)

theorem World.cellAhead_eq_ok_iff {w : World} {c : Cell} :
    w.cellAhead = .ok c ↔ w.maze.get? w.agent.ahead.1.toInt w.agent.ahead.2.toInt = some c := by
  unfold cellAhead
  dsimp only
  split
  · next c' hc => rw [hc, Except.ok.injEq, Option.some.injEq]
  · next hc => rw [hc]; exact ⟨nofun, nofun⟩

theorem World.cellAhead_eq_error {w : World} {f : Fault} (h : w.cellAhead = .error f) :
    ∃ x y, f = .outOfBounds x y := by
  unfold cellAhead at h
  simp only at h
  split at h
  · cases h
  · cases h; exact ⟨_, _, rfl⟩

/-- Values are stored in parameters, one after the other. -/
def World.receive (w : World) : List Param → List Value → World
  | x :: xs, v :: vs => (w.assign x.name v).receive xs vs
  | _, _ => w

theorem World.get?_assign (w : World) (name : String) (v : Value) (n : String) :
    (w.assign name v).store.get? n = if n = name then some v else w.store.get? n :=
  Store.get?_set w.store name v n

namespace Machine

variable {m : Machine} {s : State} {a : Nat} {S : List Value} {F : Stack Nat} {w : World}

/-- The state behind the instruction at which `s` stands. -/
def behind (s : State) : State := { s with ip := s.ip + 1, steps := s.steps + 1 }

theorem take_eq (op : Op) : m.take s op = m.step s.ip (behind s) op := rfl

/-- The state that a built-in leaves, before it puts its value onto the stack. -/
def deliver (m : Machine) (s : State) : Option Value × World → Except Fault State
  | (some v, w) => m.push { s with toWorld := w } v
  | (none, w) => .ok { s with toWorld := w }

/-- A built-in on the machine is the built-in without the stack. -/
theorem act_eq (m : Machine) (ip : Nat) (s : State) {action : Action} {args : List Value}
    (hl : args.length = action.arity) (hs : s.stack.items = args.reverse ++ S) :
    m.act ip s action =
      (s.toWorld.perform action args).bind (m.deliver { s with stack := .ofItems S }) := by
  cases action with
  | moveForward =>
    obtain rfl := List.length_eq_zero_iff.mp hl
    rw [State.with_ofItems (S := S) hs]
    cases hc : s.cellAhead with
    | error f => simp [act, World.perform, hc, bind, Except.bind]
    | ok c =>
      by_cases hw : c = .wall <;>
        simp [act, World.perform, hc, hw, deliver, bind, Except.bind, pure, Except.pure]
  | turnLeft | turnRight | completed =>
    obtain rfl := List.length_eq_zero_iff.mp hl
    rw [State.with_ofItems (S := S) hs]
    rfl
  | isWall =>
    obtain rfl := List.length_eq_zero_iff.mp hl
    rw [State.with_ofItems (S := S) hs]
    cases hc : s.cellAhead <;>
      simp [act, World.perform, hc, deliver, bind, Except.bind, pure, Except.pure]
  | teleport =>
    obtain ⟨y, x, rfl⟩ : ∃ y x, args = [y, x] := by
      match args, hl with
      | [y, x], _ => exact ⟨y, x, rfl⟩
    have hx : s.stack.items = x :: y :: S := hs
    cases x with
    | float x =>
      simp only [act, State.popCoordinate_float hx, bind, Except.bind]
      cases y <;> rfl
    | int x =>
      cases y with
      | float y =>
        simp only [act, State.popCoordinate_int hx, bind, Except.bind]
        rw [State.popCoordinate_float (S := S) rfl]
        rfl
      | int y =>
        simp only [act, State.popCoordinate_int hx, bind, Except.bind]
        rw [State.popCoordinate_int (S := S) rfl]
        by_cases hc : s.maze.contains x.toInt y.toInt <;>
          simp [World.perform, hc, deliver, pure, Except.pure, throw, throwThe, MonadExceptOf.throw]
  | print =>
    obtain ⟨v, rfl⟩ := List.length_eq_one_iff.mp hl
    have hv : s.stack.items = v :: S := hs
    simp only [act, State.pop_eq hv, bind, Except.bind]
    rfl

/-- An operator takes its operands from the stack, the right one first. -/
theorem step_binary {x y : Value} (hs : s.stack.items = y :: x :: S) (ip : Nat) (op : BinaryOp) :
    m.step ip s (.binary op) = (op.eval? x y).elim (.error (.divisionByZero ip))
      fun v => Next.state <$> m.push { s with stack := .ofItems S } v := by
  rw [Machine.step, State.pop_eq hs]
  simp only [Bind.bind, Except.bind]
  rw [State.pop_eq (s := { s with stack := .ofItems (x :: S) }) (Stack.items_ofItems _)]
  dsimp only
  cases op.eval? x y <;> rfl

theorem Step.skip (hs : s.At a S F w) (ho : m.ops[a]? = some .skip) :
    ∃ t, m.Step s t ∧ t.At (a + 1) S F w := by
  obtain ⟨rfl, rfl, rfl, rfl⟩ := hs
  exact ⟨behind s, ⟨_, ho, rfl⟩, rfl, rfl, rfl, rfl⟩

/-- A call of a function goes on at its entry, if there is room for one call more. -/
theorem Step.enter_or_fails {entry : Nat} {name : String} (hs : s.At a S F w)
    (ho : m.ops[a]? = some (.call (.address entry) name)) :
    (∃ t, m.Step s t ∧ t.At entry S (F.push (a + 1)) w) ∨ m.Fails s (.stackOverflow m.maxStack) := by
  obtain ⟨rfl, rfl, rfl, rfl⟩ := hs
  by_cases hroom : s.frames.size < m.maxStack
  · refine .inl ⟨{ behind s with frames := s.frames.push (s.ip + 1), ip := entry }, ⟨_, ho, ?_⟩,
      rfl, rfl, rfl, rfl⟩
    rw [take_eq, Machine.step, behind, if_pos hroom]
  · exact .inr ⟨_, ho, by rw [take_eq, Machine.step, behind, if_neg hroom]⟩

theorem Step.enter {t : State} {entry : Nat} {name : String} (hs : s.At a S F w)
    (ho : m.ops[a]? = some (.call (.address entry) name)) (h : m.Step s t) :
    t.At entry S (F.push (a + 1)) w := by
  rcases Step.enter_or_fails hs ho with ⟨u, hu, hat⟩ | hf
  · rwa [h.det hu]
  · exact absurd (.fail hf) h.not_ends

/-- A return goes on behind the last open call, and the stack stays as it is. -/
theorem Step.back {b : Nat} (hs : s.At a S (F.push b) w)
    (ho : m.ops[a]? = some .ret ∨ m.ops[a]? = some .retVoid) :
    m.Step s { behind s with ip := b, frames := F } := by
  obtain ⟨rfl, rfl, hframes, rfl⟩ := hs
  have hback : ∀ r, Machine.back (behind s) r = .state { behind s with ip := b, frames := F } := by
    intro r
    rw [Machine.back, behind]
    simp only [hframes, Stack.pop?_push]
  rcases ho with ho | ho
  · exact ⟨.ret, ho, by rw [take_eq, Machine.step, hback]⟩
  · exact ⟨.retVoid, ho, by rw [take_eq, Machine.step, hback]⟩

theorem back_of_empty (h : s.frames = .empty) (v : Option Value) : back s v = .halt v s := by
  have hpop : s.frames.pop? = none := by rw [Stack.pop?_eq_none_iff, h]; rfl
  rw [Machine.back, hpop]

/-- A return with no open call halts with the top of the stack. -/
theorem Ends.ret (hs : s.At a S .empty w) (ho : m.ops[a]? = some .ret) :
    m.Ends s (.ok (S.head?, behind s)) := by
  obtain ⟨rfl, rfl, hframes, rfl⟩ := hs
  refine .halt ho ?_
  rw [take_eq, Machine.step, back_of_empty (s := behind s) hframes]
  rfl

theorem Ends.retVoid (hs : s.At a S .empty w) (ho : m.ops[a]? = some .retVoid) :
    m.Ends s (.ok (none, behind s)) := by
  obtain ⟨rfl, rfl, hframes, rfl⟩ := hs
  refine .halt ho ?_
  rw [take_eq, Machine.step, back_of_empty (s := behind s) hframes]

/-! ### Rules -/

namespace Runs

variable {W : Watch} {out : Prop} {Q : Nat → State → Prop} {n j : Nat} {v : Value}

theorem push (hs : s.At a S F w) (ho : m.ops[a]? = some (.push v)) (hh : W.holds s)
    (hf : W.allows (.stackOverflow m.maxStack))
    (next : ∀ t, t.At (a + 1) (v :: S) F w → Runs W m out Q n (j + W.counts s) t) :
    Runs W m out Q (n + 1) j s := by
  obtain ⟨rfl, rfl, rfl, rfl⟩ := hs
  exact .pushes ho (t := behind s) rfl hh hf (next _ ⟨rfl, rfl, rfl, rfl⟩)

theorem load {name : String} (hs : s.At a S F w) (ho : m.ops[a]? = some (.load name))
    (hh : W.holds s) (hf : W.allows (.stackOverflow m.maxStack))
    (hundef : w.store.get? name = none → W.allows (.undefinedVariable name))
    (next : ∀ v, w.store.get? name = some v → ∀ t, t.At (a + 1) (v :: S) F w →
      Runs W m out Q n (j + W.counts s) t) : Runs W m out Q (n + 1) j s := by
  obtain ⟨rfl, rfl, rfl, rfl⟩ := hs
  cases hv : s.store.get? name with
  | none => exact .fails ho (by simp only [take_eq, Machine.step, behind, hv]) hh (hundef hv)
  | some v =>
    exact .pushes ho (t := behind s) (by simp only [take_eq, Machine.step, behind, hv]) hh hf
      (next v hv _ ⟨rfl, rfl, rfl, rfl⟩)

theorem store {name : String} (hs : s.At a (v :: S) F w) (ho : m.ops[a]? = some (.store name))
    (hh : W.holds s)
    (next : ∀ t, t.At (a + 1) S F (w.assign name v) → Runs W m out Q n (j + W.counts s) t) :
    Runs W m out Q (n + 1) j s := by
  obtain ⟨rfl, hitems, rfl, rfl⟩ := hs
  refine .goes ho (t := { behind s with stack := .ofItems S, toWorld := s.assign name v }) ?_ hh
    (next _ ⟨rfl, rfl, rfl, rfl⟩)
  rw [take_eq, Machine.step, State.pop_eq (s := behind s) hitems]
  rfl

theorem binary {op : BinaryOp} {x y : Value} (hs : s.At a (y :: x :: S) F w)
    (ho : m.ops[a]? = some (.binary op)) (hh : W.holds s)
    (hf : W.allows (.stackOverflow m.maxStack))
    (hdiv : op.eval? x y = none → W.allows (.divisionByZero a))
    (next : ∀ v, op.eval? x y = some v → ∀ t, t.At (a + 1) (v :: S) F w →
      Runs W m out Q n (j + W.counts s) t) : Runs W m out Q (n + 1) j s := by
  obtain ⟨rfl, hitems, rfl, rfl⟩ := hs
  have htake : m.take s (.binary op) = (op.eval? x y).elim (.error (.divisionByZero s.ip))
      fun v => Next.state <$> m.push { behind s with stack := .ofItems S } v :=
    step_binary (s := behind s) hitems s.ip op
  cases hv : op.eval? x y with
  | none => exact .fails ho (by rw [htake, hv]; rfl) hh (hdiv hv)
  | some v =>
    refine .pushes ho (t := { behind s with stack := .ofItems S }) ?_ hh hf
      (next v hv _ ⟨rfl, rfl, rfl, rfl⟩)
    rw [htake, hv]
    rfl

/-- An instruction that turns the top of the stack into another value. -/
theorem change {op : Op} {g : Value → Value} {x : Value} (hs : s.At a (x :: S) F w)
    (ho : m.ops[a]? = some op)
    (hop : ∀ s : State, m.step a s op = s.pop a >>= fun (v, s) => Next.state <$> m.push s (g v))
    (hh : W.holds s) (hf : W.allows (.stackOverflow m.maxStack))
    (next : ∀ t, t.At (a + 1) (g x :: S) F w → Runs W m out Q n (j + W.counts s) t) :
    Runs W m out Q (n + 1) j s := by
  obtain ⟨rfl, hitems, rfl, rfl⟩ := hs
  refine .pushes ho (t := { behind s with stack := .ofItems S }) ?_ hh hf
    (next _ ⟨rfl, rfl, rfl, rfl⟩)
  rw [take_eq, hop, State.pop_eq (s := behind s) hitems]
  rfl

theorem skip (hs : s.At a S F w) (ho : m.ops[a]? = some .skip) (hh : W.holds s)
    (next : ∀ t, t.At (a + 1) S F w → Runs W m out Q n (j + W.counts s) t) :
    Runs W m out Q (n + 1) j s :=
  let ⟨t, hst, ht⟩ := Step.skip hs ho
  .step hh hst (next t ht)

theorem jump {b : Nat} {label : String} (hs : s.At a S F w)
    (ho : m.ops[a]? = some (.jump (some b) label)) (hh : W.holds s)
    (next : ∀ t, t.At b S F w → Runs W m out Q n (j + W.counts s) t) :
    Runs W m out Q (n + 1) j s := by
  obtain ⟨rfl, rfl, rfl, rfl⟩ := hs
  exact .goes ho (t := { behind s with ip := b }) rfl hh (next _ ⟨rfl, rfl, rfl, rfl⟩)

theorem jumpIfFalse {b : Nat} {label : String} (hs : s.At a (v :: S) F w)
    (ho : m.ops[a]? = some (.jumpIfFalse (some b) label)) (hh : W.holds s)
    (next : ∀ t, t.At (if v.truthy then a + 1 else b) S F w →
      Runs W m out Q n (j + W.counts s) t) : Runs W m out Q (n + 1) j s := by
  obtain ⟨rfl, hitems, rfl, rfl⟩ := hs
  have htake : m.take s (.jumpIfFalse (some b) label) = .ok (.state
      { behind s with stack := .ofItems S, ip := if v.truthy then s.ip + 1 else b }) := by
    rw [take_eq, Machine.step, State.pop_eq (s := behind s) hitems]
    change (if v.truthy then _ else _) = _
    cases v.truthy <;> rfl
  exact .goes ho htake hh (next _ ⟨rfl, rfl, rfl, rfl⟩)

theorem action {action : Action} {name : String} {args : List Value}
    (hs : s.At a (args.reverse ++ S) F w) (ho : m.ops[a]? = some (.call (.action action) name))
    (hl : args.length = action.arity) (hh : W.holds s)
    (hf : W.allows (.stackOverflow m.maxStack))
    (hfault : ∀ f, w.perform action args = .error f → W.allows f)
    (next : ∀ v w', w.perform action args = .ok (v, w') →
      ∀ t, t.At (a + 1) (v.toList ++ S) F w' → Runs W m out Q n (j + W.counts s) t) :
    Runs W m out Q (n + 1) j s := by
  obtain ⟨rfl, hitems, rfl, rfl⟩ := hs
  have htake : m.take s (.call (.action action) name) = Next.state <$>
      (s.toWorld.perform action args).bind (m.deliver { behind s with stack := .ofItems S }) := by
    rw [take_eq, Machine.step, act_eq m s.ip (behind s) hl hitems]
    rfl
  cases hp : s.toWorld.perform action args with
  | error f => exact .fails ho (by rw [htake, hp]; rfl) hh (hfault f hp)
  | ok r =>
    obtain ⟨v, w'⟩ := r
    rw [hp] at htake
    cases v with
    | none => exact .goes ho htake hh (next none w' hp _ ⟨rfl, rfl, rfl, rfl⟩)
    | some v => exact .pushes ho htake hh hf (next (some v) w' hp _ ⟨rfl, rfl, rfl, rfl⟩)

/-- A call of a function, which goes on at its entry. -/
theorem enter {entry : Nat} {name : String} (hs : s.At a S F w)
    (ho : m.ops[a]? = some (.call (.address entry) name)) (hh : W.holds s)
    (hf : W.allows (.stackOverflow m.maxStack))
    (next : ∀ t, t.At entry S (F.push (a + 1)) w → Runs W m out Q n (j + W.counts s) t) :
    Runs W m out Q (n + 1) j s := by
  rcases Step.enter_or_fails hs ho with ⟨t, hst, ht⟩ | hfails
  · exact .step hh hst (next t ht)
  · exact .fault hh hfails hf

/-- A return to an open call. -/
theorem back {b : Nat} (hs : s.At a S (F.push b) w)
    (ho : m.ops[a]? = some .ret ∨ m.ops[a]? = some .retVoid) (hh : W.holds s)
    (next : ∀ t, t.At b S F w → Runs W m out Q n (j + W.counts s) t) :
    Runs W m out Q (n + 1) j s :=
  .step hh (Step.back hs ho) (next _ ⟨rfl, hs.items_eq, rfl, hs.world_eq⟩)

end Runs

end Machine

end Labyrinth
