import Labyrinth.Proofs.Machine.Rules
import Labyrinth.Proofs.Except

/-!
# What a step does

`Machine.Effect m s op t`: the instruction `op` leads from `s` to `t`. There is one rule for each
instruction, with the room and the operands that it needs; every step is by one of them (`Step.effect`).
-/

namespace Labyrinth

namespace Machine

inductive Effect (m : Machine) (s : State) : Op → State → Prop
  | push {v t} : s.stack.size < m.maxStack →
      t.At (s.ip + 1) (v :: s.stack.items) s.frames s.toWorld → Effect m s (.push v) t
  | load {name v t} : s.store.get? name = some v → s.stack.size < m.maxStack →
      t.At (s.ip + 1) (v :: s.stack.items) s.frames s.toWorld → Effect m s (.load name) t
  | store {name v S t} : s.stack.items = v :: S →
      t.At (s.ip + 1) S s.frames (s.assign name v) → Effect m s (.store name) t
  | binary {op a b v S t} : s.stack.items = b :: a :: S → op.eval? a b = some v →
      t.At (s.ip + 1) (v :: S) s.frames s.toWorld → Effect m s (.binary op) t
  | neg {v S t} : s.stack.items = v :: S →
      t.At (s.ip + 1) (v.neg :: S) s.frames s.toWorld → Effect m s .neg t
  | not {v S t} : s.stack.items = v :: S →
      t.At (s.ip + 1) (v.not :: S) s.frames s.toWorld → Effect m s .not t
  | toFloat {v S t} : s.stack.items = v :: S →
      t.At (s.ip + 1) (.float v.toFloat :: S) s.frames s.toWorld → Effect m s .toFloat t
  | skip {t} : t.At (s.ip + 1) s.stack.items s.frames s.toWorld → Effect m s .skip t
  | jump {b label t} : t.At b s.stack.items s.frames s.toWorld → Effect m s (.jump (some b) label) t
  | pass {target label v S t} : s.stack.items = v :: S → v.truthy →
      t.At (s.ip + 1) S s.frames s.toWorld → Effect m s (.jumpIfFalse target label) t
  | branch {b label v S t} : s.stack.items = v :: S → ¬v.truthy →
      t.At b S s.frames s.toWorld → Effect m s (.jumpIfFalse (some b) label) t
  /-- A built-in takes its arguments from the stack, and its value, if it has one, needs room. -/
  | act {action name args v w S t} : s.stack.items = args.reverse ++ S →
      args.length = action.arity → s.toWorld.perform action args = .ok (v, w) →
      (v.isSome → S.length < m.maxStack) →
      t.At (s.ip + 1) (v.toList ++ S) s.frames w → Effect m s (.call (.action action) name) t
  | enter {entry name t} : s.frames.size < m.maxStack →
      t.At entry s.stack.items (s.frames.push (s.ip + 1)) s.toWorld →
      Effect m s (.call (.address entry) name) t
  | ret {b F t} : s.frames = F.push b → t.At b s.stack.items F s.toWorld → Effect m s .ret t
  | retVoid {b F t} : s.frames = F.push b → t.At b s.stack.items F s.toWorld → Effect m s .retVoid t

variable {m : Machine} {s t : State} {ip : Nat} {op : Op} {v : Value} {v? : Option Value}
  {action : Action}

theorem push_eq_ok (h : m.push s v = .ok t) :
    s.stack.size < m.maxStack ∧ t = { s with stack := s.stack.push v } := by
  unfold push at h
  split at h
  · next hroom => cases h; exact ⟨hroom, rfl⟩
  · cases h

theorem state_push_eq_ok (h : Next.state <$> m.push s v = .ok (.state t)) :
    s.stack.size < m.maxStack ∧ t.At s.ip (v :: s.stack.items) s.frames s.toWorld := by
  cases hp : m.push s v with
  | error f => rw [hp] at h; cases h
  | ok u =>
    rw [hp] at h
    cases h
    obtain ⟨hroom, rfl⟩ := push_eq_ok hp
    exact ⟨hroom, rfl, rfl, rfl, rfl⟩

/-- An instruction that takes a value succeeds only if there is one. -/
theorem pop_bind_eq_ok {α : Type} {f : Value × State → Except Fault α} {a : α}
    (h : s.pop ip >>= f = .ok a) :
    ∃ v S, s.stack.items = v :: S ∧ f (v, { s with stack := .ofItems S }) = .ok a := by
  cases hs : s.stack.items with
  | nil => rw [State.pop_eq_error hs] at h; cases h
  | cons v S => rw [State.pop_eq hs] at h; exact ⟨v, S, rfl, h⟩

theorem back_eq_state (h : back s v? = .state t) :
    ∃ b F, s.frames = F.push b ∧ t.At b s.stack.items F s.toWorld := by
  unfold back at h
  split at h
  · next b F hpop => cases h; exact ⟨b, F, Stack.ext (Stack.pop?_eq_some_iff.mp hpop), rfl, rfl, rfl, rfl⟩
  · cases h

/-- A built-in succeeds only if its arguments are on the stack. -/
theorem exists_args (h : m.act ip s action = .ok t) :
    ∃ (args S : List Value), s.stack.items = args.reverse ++ S ∧ args.length = action.arity := by
  cases action with
  | teleport =>
    unfold act State.popCoordinate at h
    simp only [bind_assoc] at h
    obtain ⟨x, S, hx, h⟩ := pop_bind_eq_ok h
    cases x with
    | float x => cases h
    | int x =>
      obtain ⟨y, S', hy, -⟩ := pop_bind_eq_ok h
      obtain rfl : S = y :: S' := hy
      exact ⟨[y, .int x], S', hx, rfl⟩
  | print =>
    obtain ⟨v, S, hv, -⟩ := pop_bind_eq_ok h
    exact ⟨[v], S, hv, rfl⟩
  | _ => exact ⟨[], s.stack.items, rfl, rfl⟩

theorem Effect.of_act {name : String} (h : m.act s.ip (behind s) action = .ok t) :
    Effect m s (.call (.action action) name) t := by
  obtain ⟨args, S, hs, hl⟩ := exists_args h
  rw [act_eq m s.ip (behind s) hl hs] at h
  obtain ⟨⟨v, w⟩, hw, h⟩ := Except.bind_eq_ok.mp h
  refine .act hs hl hw ?_ ?_
  · rintro hv
    obtain ⟨v, rfl⟩ := Option.isSome_iff_exists.mp hv
    exact (push_eq_ok h).1
  · cases v with
    | none => cases h; exact ⟨rfl, rfl, rfl, rfl⟩
    | some v =>
      obtain ⟨-, rfl⟩ := push_eq_ok h
      exact ⟨rfl, rfl, rfl, rfl⟩

/-- An instruction that puts another value in the place of the top. -/
theorem change_eq_ok {g : Value → Value}
    (h : (s.pop ip >>= fun (v, u) => Next.state <$> m.push u (g v)) = .ok (.state t)) :
    ∃ v S, s.stack.items = v :: S ∧ t.At s.ip (g v :: S) s.frames s.toWorld := by
  obtain ⟨v, S, hv, h⟩ := pop_bind_eq_ok h
  exact ⟨v, S, hv, (state_push_eq_ok h).2⟩

theorem jump_eq_ok {target : Option Nat} {label : String}
    (h : Next.state <$> jump s target label = .ok (.state t)) :
    ∃ b, target = some b ∧ t.At b s.stack.items s.frames s.toWorld := by
  cases target with
  | none => cases h
  | some b => cases h; exact ⟨b, rfl, rfl, rfl, rfl, rfl⟩

theorem take_effect (h : m.take s op = .ok (.state t)) : Effect m s op t := by
  rw [take_eq] at h
  cases op with
  | push v =>
    obtain ⟨hroom, ht⟩ := state_push_eq_ok h
    exact .push hroom ht
  | load name =>
    rw [step] at h
    split at h
    · next v hv =>
      obtain ⟨hroom, ht⟩ := state_push_eq_ok h
      exact .load hv hroom ht
    · cases h
  | store name =>
    obtain ⟨v, S, hv, h⟩ := pop_bind_eq_ok h
    cases h
    exact .store hv ⟨rfl, rfl, rfl, rfl⟩
  | binary op =>
    obtain ⟨b, S, hb, h⟩ := pop_bind_eq_ok h
    obtain ⟨a, S', ha, h⟩ := pop_bind_eq_ok h
    obtain rfl : S = a :: S' := ha
    dsimp only at h
    split at h
    · next v hv => exact .binary hb hv (state_push_eq_ok h).2
    · cases h
  | neg =>
    obtain ⟨v, S, hv, ht⟩ := change_eq_ok h
    exact .neg hv ht
  | not =>
    obtain ⟨v, S, hv, ht⟩ := change_eq_ok h
    exact .not hv ht
  | toFloat =>
    obtain ⟨v, S, hv, ht⟩ := change_eq_ok (g := fun v => .float v.toFloat) h
    exact .toFloat hv ht
  | skip => cases h; exact .skip ⟨rfl, rfl, rfl, rfl⟩
  | jump target label =>
    obtain ⟨b, rfl, ht⟩ := jump_eq_ok h
    exact .jump ht
  | jumpIfFalse target label =>
    obtain ⟨v, S, hv, h⟩ := pop_bind_eq_ok h
    dsimp only at h
    split at h
    · next htrue => cases h; exact .pass hv htrue ⟨rfl, rfl, rfl, rfl⟩
    · next hfalse =>
      obtain ⟨b, rfl, ht⟩ := jump_eq_ok h
      exact .branch hv hfalse ht
  | call target name =>
    cases target with
    | action action =>
      rw [step] at h
      cases ha : m.act s.ip (behind s) action with
      | error f => rw [ha] at h; cases h
      | ok u => rw [ha] at h; cases h; exact .of_act ha
    | address entry =>
      rw [step] at h
      split at h
      · next hroom => cases h; exact .enter hroom ⟨rfl, rfl, rfl, rfl⟩
      · cases h
    | unresolved => cases h
  | ret =>
    obtain ⟨b, F, hF, ht⟩ := back_eq_state (Except.ok.inj h)
    exact .ret hF ht
  | retVoid =>
    obtain ⟨b, F, hF, ht⟩ := back_eq_state (Except.ok.inj h)
    exact .retVoid hF ht

/-- Every step is by one of the rules. -/
theorem Step.effect (h : m.Step s t) : ∃ op, m.ops[s.ip]? = some op ∧ Effect m s op t :=
  let ⟨op, ho, ht⟩ := h
  ⟨op, ho, take_effect ht⟩

end Machine

end Labyrinth
