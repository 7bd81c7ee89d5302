import Labyrinth.Proofs.Machine.Rules

/-!
# What instructions have in common

An instruction takes values from the stack, works on the world and puts a value back, and any of this may
fail. `Machine.Carries m J R`: this is harmless to `J`, a property of states, and what it ends with has `R`.
Then so does every instruction that only goes on behind it (`Carries.step_of_goesOn`), and of the others
it is enough to know what a jump, a call and a return do (`Carries.step`).
-/

namespace Labyrinth

/-- Whether a fault says that a stack is full. -/
def Fault.IsOverflow : Fault → Prop
  | .stackOverflow _ => True
  | _ => False

/-- Whether an instruction can only go on behind it, with the same open calls. -/
def Op.goesOn : Op → Bool
  | .jump _ _ | .jumpIfFalse _ _ | .call (.address _) _ | .ret | .retVoid => false
  | _ => true

namespace Machine

structure Carries (m : Machine) (J : State → Prop) (R : Except Fault Next → Prop) : Prop where
  state : ∀ {s : State}, J s → R (.ok (.state s))
  error : ∀ {f : Fault}, ¬f.IsOverflow → R (.error f)
  push : ∀ {s : State}, J s → ∀ v, R (Next.state <$> m.push s v)
  pop : ∀ {s : State} {v : Value} {stack : Stack Value}, J s → s.stack.pop? = some (v, stack) →
    J { s with stack }
  world : ∀ {s : State}, J s → ∀ w : World, J { s with toWorld := w }

namespace Carries

variable {m : Machine} {J : State → Prop} {R : Except Fault Next → Prop} {s : State} {ip : Nat}

theorem bind_pop (h : Carries m J R) (hs : J s) {g : Value × State → Except Fault Next}
    (hg : ∀ v t, J t → R (g (v, t))) : R (s.pop ip >>= g) := by
  unfold State.pop
  split
  · next hpop => exact hg _ _ (h.pop hs hpop)
  · exact h.error id

theorem bind_cellAhead (h : Carries m J R) {g : Cell → Except Fault Next} (hg : ∀ c, R (g c)) :
    R (s.cellAhead >>= g) := by
  cases hc : s.cellAhead with
  | ok c => exact hg c
  | error f =>
    obtain ⟨x, y, rfl⟩ := World.cellAhead_eq_error hc
    exact h.error id

theorem act (h : Carries m J R) (hs : J s) (ip : Nat) (action : Action) :
    R (Next.state <$> m.act ip s action) := by
  cases action with
  | moveForward =>
    simp only [Machine.act, map_bind]
    refine h.bind_cellAhead fun c => ?_
    split
    · exact h.push hs _
    · exact h.push (h.world hs s.forward) _
  | turnLeft | turnRight => exact h.state (h.world hs _)
  | isWall =>
    simp only [Machine.act, map_bind]
    exact h.bind_cellAhead fun c => h.push hs _
  | completed => exact h.push hs _
  | teleport =>
    simp only [Machine.act, State.popCoordinate, map_bind, bind_assoc]
    refine h.bind_pop hs fun x t ht => ?_
    cases x with
    | float x => exact h.error id
    | int x =>
      refine h.bind_pop ht fun y u hu => ?_
      cases y with
      | float y => exact h.error id
      | int y =>
        show R (Next.state <$> if u.maze.contains x.toInt y.toInt then _ else _)
        split
        · exact h.state (h.world hu _)
        · exact h.error id
  | print =>
    simp only [Machine.act, map_bind]
    exact h.bind_pop hs fun v t ht => h.state (h.world ht _)

theorem step_of_goesOn (h : Carries m J R) (hs : J s) (ip : Nat) {op : Op} (hop : op.goesOn) :
    R (m.step ip s op) := by
  cases op with
  | push v => exact h.push hs v
  | load name =>
    rw [Machine.step]
    split
    · exact h.push hs _
    · exact h.error id
  | store name => exact h.bind_pop hs fun v t ht => h.state (h.world ht _)
  | binary op =>
    refine h.bind_pop hs fun b t ht => h.bind_pop ht fun a u hu => ?_
    dsimp only
    split
    · exact h.push hu _
    · exact h.error id
  | neg | not | toFloat => exact h.bind_pop hs fun v t ht => h.push ht _
  | skip => exact h.state hs
  | call target name =>
    cases target with
    | action action => exact h.act hs ip action
    | unresolved => exact h.error id
    | address entry => cases hop
  | jump _ _ | jumpIfFalse _ _ | ret | retVoid => cases hop

/-- Of the instructions that go on elsewhere, it is left to say what comes of it. -/
theorem step (h : Carries m J R) (hjump : ∀ {s : State} {b}, J s → J { s with ip := b })
    (hback : ∀ {s : State} v, J s → R (.ok (back s v)))
    (henter : ∀ {s : State} {entry}, J s →
      R (if s.frames.size < m.maxStack then
          .ok (.state { s with frames := s.frames.push s.ip, ip := entry })
        else .error (.stackOverflow m.maxStack)))
    (hs : J s) (ip : Nat) (op : Op) : R (m.step ip s op) := by
  have hto {s : State} (hs : J s) (target : Option Nat) (label : String) :
      R (Next.state <$> jump s target label) := by
    cases target with
    | some b => exact h.state (hjump hs)
    | none => exact h.error id
  cases hop : op.goesOn with
  | true => exact h.step_of_goesOn hs ip hop
  | false =>
    cases op with
    | jump target label => exact hto hs target label
    | jumpIfFalse target label =>
      refine h.bind_pop hs fun v t ht => ?_
      dsimp only
      split
      · exact h.state ht
      · exact hto ht target label
    | call target name =>
      cases target with
      | address entry => exact henter hs
      | _ => cases hop
    | ret | retVoid => exact hback _ hs
    | _ => cases hop

end Carries

end Machine

end Labyrinth
