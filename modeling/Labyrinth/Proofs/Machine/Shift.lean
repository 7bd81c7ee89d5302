import Labyrinth.Proofs.Machine.Rules
import Labyrinth.Proofs.Except

/-!
# Moved states

An instruction does not look at the places of a state, and but for two it does not look at the variables:
with all places moved by the same amount, and with other variables, it does the same there
(`Machine.step_shift`). Only a fault that names its place tells the difference.
-/

namespace Labyrinth

/-- The stack with another item in place of each. -/
def Stack.map {α β : Type} (f : α → β) (s : Stack α) : Stack β :=
  ⟨s.items.map f, s.size, by simp [s.size_eq]⟩

@[simp] theorem Stack.items_map {α β : Type} (f : α → β) (s : Stack α) :
    (s.map f).items = s.items.map f := rfl

theorem Stack.pop?_map {α β : Type} (f : α → β) (s : Stack α) :
    (s.map f).pop? = s.pop?.map fun top => (f top.1, top.2.map f) := by
  cases hs : s.pop? with
  | none =>
    have hitems := Stack.pop?_eq_none_iff.mp hs
    rw [Option.map_none, Stack.pop?_eq_none_iff, Stack.items_map, hitems, List.map_nil]
  | some top =>
    have hitems := Stack.pop?_eq_some_iff.mp hs
    rw [Option.map_some, Stack.pop?_eq_some_iff, Stack.items_map, hitems, List.map_cons,
      Stack.items_map]

/-- The fault of an instruction that stands `k` places further back. -/
def Fault.shift (k : Nat) : Fault → Fault
  | stackUnderflow ip => stackUnderflow (ip + k)
  | divisionByZero ip => divisionByZero (ip + k)
  | f => f

theorem Fault.shift_zero (f : Fault) : f.shift 0 = f := by
  cases f <;> rfl

/-- The state with its places moved by `k`, and with other variables. -/
def State.shift (k : Nat) (σ : Store → Store) (s : State) : State :=
  { s with ip := s.ip + k, frames := s.frames.map (· + k), store := σ s.store }

def Next.shift (k : Nat) (σ : Store → Store) : Next → Next
  | .state s => .state (s.shift k σ)
  | .halt v s => .halt v (s.shift k σ)

/-- An instruction whose places are moved by `k`. The name of a label is of no use if it has a place. -/
inductive Op.Shifted (k : Nat) : Op → Op → Prop
  | push {v : Value} : Shifted k (.push v) (.push v)
  | load {name : String} : Shifted k (.load name) (.load name)
  | store {name : String} : Shifted k (.store name) (.store name)
  | binary {op : BinaryOp} : Shifted k (.binary op) (.binary op)
  | neg : Shifted k .neg .neg
  | not : Shifted k .not .not
  | toFloat : Shifted k .toFloat .toFloat
  | skip : Shifted k .skip .skip
  | jump {target : Option Nat} {label label' : String} : (target = none → label = label') →
      Shifted k (.jump target label) (.jump (target.map (· + k)) label')
  | jumpIfFalse {target : Option Nat} {label label' : String} : (target = none → label = label') →
      Shifted k (.jumpIfFalse target label) (.jumpIfFalse (target.map (· + k)) label')
  | act {action : Action} {name : String} :
      Shifted k (.call (.action action) name) (.call (.action action) name)
  | enter {entry : Nat} {name : String} :
      Shifted k (.call (.address entry) name) (.call (.address (entry + k)) name)
  | unresolved {name : String} : Shifted k (.call .unresolved name) (.call .unresolved name)
  | ret : Shifted k .ret .ret
  | retVoid : Shifted k .retVoid .retVoid

theorem Op.Shifted.refl (op : Op) : op.Shifted 0 op := by
  cases op with
  | push v => exact .push
  | load name => exact .load
  | store name => exact .store
  | binary op => exact .binary
  | neg => exact .neg
  | not => exact .not
  | toFloat => exact .toFloat
  | skip => exact .skip
  | jump target label =>
    have hjump := @Op.Shifted.jump 0 target label label fun _ => rfl
    cases target <;> exact hjump
  | jumpIfFalse target label =>
    have hjump := @Op.Shifted.jumpIfFalse 0 target label label fun _ => rfl
    cases target <;> exact hjump
  | call target name =>
    cases target with
    | action action => exact .act
    | address entry => exact .enter
    | unresolved => exact .unresolved
  | ret => exact .ret
  | retVoid => exact .retVoid

/-- Whether an instruction has nothing to do with variables. -/
def Op.closed : Op → Bool
  | load _ | store _ => false
  | _ => true

namespace Machine

variable {m m' : Machine} {k ip : Nat} {σ : Store → Store} {s : State} {op op' : Op}

/-- What an instruction leads to when it leads to `r` elsewhere. -/
def shifted (k : Nat) (σ : Store → Store) (r : Except Fault Next) : Except Fault Next :=
  (r.map (Next.shift k σ)).mapError (Fault.shift k)

theorem push_shift (hroom : m'.maxStack = m.maxStack) (s : State) (a : Value) :
    Next.state <$> m'.push (s.shift k σ) a = shifted k σ (Next.state <$> m.push s a) := by
  unfold push
  rw [hroom]
  show Next.state <$> (if s.stack.size < m.maxStack then _ else _) = _
  split <;> rfl

theorem pop_shift {g g' : Value × State → Except Fault Next}
    (h : ∀ a t, g (a, t.shift k σ) = shifted k σ (g' (a, t))) (ip : Nat) (s : State) :
    ((s.shift k σ).pop (ip + k) >>= g) = shifted k σ (s.pop ip >>= g') := by
  simp only [State.pop, State.shift]
  cases s.stack.pop? with
  | none => rfl
  | some top => exact h top.1 { s with stack := top.2 }

theorem cellAhead_shift {g g' : Cell → Except Fault Next} (h : ∀ c, g c = shifted k σ (g' c))
    (s : State) : ((s.shift k σ).cellAhead >>= g) = shifted k σ (s.cellAhead >>= g') := by
  show (s.cellAhead >>= g) = _
  cases hahead : s.cellAhead with
  | ok c => exact h c
  | error f =>
    obtain ⟨x, y, rfl⟩ := World.cellAhead_eq_error hahead
    rfl

theorem act_shift (hroom : m'.maxStack = m.maxStack) (ip : Nat) (s : State) (action : Action) :
    Next.state <$> m'.act (ip + k) (s.shift k σ) action =
      shifted k σ (Next.state <$> m.act ip s action) := by
  cases action with
  | moveForward =>
    simp only [act, map_bind]
    refine cellAhead_shift (fun c => ?_) s
    split
    · exact push_shift hroom s _
    · exact push_shift hroom { s with toWorld := s.forward } _
  | turnLeft | turnRight => rfl
  | isWall =>
    simp only [act, map_bind]
    exact cellAhead_shift (fun c => push_shift hroom s _) s
  | completed => exact push_shift hroom s _
  | teleport =>
    simp only [act, State.popCoordinate, map_bind, bind_assoc]
    refine pop_shift (fun x t => ?_) ip s
    cases x with
    | float x => rfl
    | int x =>
      refine pop_shift (fun y u => ?_) ip t
      cases y with
      | float y => rfl
      | int y =>
        show Next.state <$> (if u.maze.contains x.toInt y.toInt then _ else _) =
          shifted k σ (Next.state <$> if u.maze.contains x.toInt y.toInt then _ else _)
        split <;> rfl
  | print =>
    simp only [act, map_bind]
    exact pop_shift (fun v t => rfl) ip s

theorem jump_shift {target : Option Nat} {label label' : String} (h : target = none → label = label')
    (s : State) : Next.state <$> jump (s.shift k σ) (target.map (· + k)) label' =
      shifted k σ (Next.state <$> jump s target label) := by
  cases target with
  | none => rw [h rfl]; rfl
  | some ip => rfl

theorem back_shift (s : State) (result : Option Value) :
    back (s.shift k σ) result = (back s result).shift k σ := by
  have hpop : (s.shift k σ).frames.pop? = s.frames.pop?.map fun top => (top.1 + k, top.2.map (· + k)) :=
    Stack.pop?_map _ _
  unfold back
  rw [hpop]
  cases s.frames.pop? <;> rfl

/-- A moved instruction does the same at its place, if the variables are the same or do not matter. -/
theorem step_shift (hroom : m'.maxStack = m.maxStack) (hop : op.closed ∨ σ = id)
    (h : op.Shifted k op') (ip : Nat) (s : State) :
    m'.step (ip + k) (s.shift k σ) op' = shifted k σ (m.step ip s op) := by
  cases h with
  | @load name =>
    obtain rfl := hop.resolve_left Bool.false_ne_true
    have hget : (s.shift k id).store.get? name = s.store.get? name := rfl
    rw [step, step, hget]
    cases s.store.get? name with
    | none => rfl
    | some v => exact push_shift hroom s v
  | store =>
    obtain rfl := hop.resolve_left Bool.false_ne_true
    exact pop_shift (fun v t => rfl) ip s
  | push => exact push_shift hroom s _
  | binary =>
    refine pop_shift (fun b t => pop_shift (fun a u => ?_) ip t) ip s
    dsimp only
    split
    · exact push_shift hroom u _
    · rfl
  | neg | not | toFloat => exact pop_shift (fun v t => push_shift hroom t _) ip s
  | skip => rfl
  | jump hlabel => exact jump_shift hlabel s
  | jumpIfFalse hlabel =>
    refine pop_shift (fun v t => ?_) ip s
    dsimp only
    split
    · rfl
    · exact jump_shift hlabel t
  | @act action name => exact act_shift hroom ip s action
  | @enter entry name =>
    rw [step, step, hroom]
    show (if s.frames.size < m.maxStack then _ else _) = _
    split
    · rfl
    · rfl
  | unresolved => rfl
  | ret | retVoid => exact congrArg Except.ok (back_shift s _)

theorem take_shift (hroom : m'.maxStack = m.maxStack) (hop : op.closed ∨ σ = id)
    (h : op.Shifted k op') (s : State) :
    m'.take (s.shift k σ) op' = shifted k σ (m.take s op) := by
  have hbehind : behind (s.shift k σ) = (behind s).shift k σ := by
    simp only [behind, State.shift, Nat.add_right_comm]
  rw [take_eq, take_eq, hbehind]
  exact step_shift hroom hop h s.ip (behind s)

end Machine

end Labyrinth
