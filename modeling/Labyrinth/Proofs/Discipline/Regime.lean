import Labyrinth.Proofs.Discipline.Values
import Labyrinth.Proofs.Code.Takes

/-!
# What a program keeps to while it runs

A `Regime` says what is followed along a run: whether the values have the forms of their types, and
whether the variables in scope are defined. It is kept in parts of a run: the code of an expression
leaves its value (`Regime.Leaves`), and that of a statement goes on behind it (`Regime.Passes`) or comes
to a return (`Regime.Returns`). What expressions without use left on the stack stands between.
-/

namespace Labyrinth

open Machine

structure Regime where
  /-- Values have the forms of their types. -/
  typed : Prop
  /-- Variables in scope are defined. -/
  defined : Prop

/-- How many values the instruction at a place leaves unused. -/
def Program.discardedAt (p : Program) (a : Nat) : Nat :=
  if p.marks[a]?.any (·.discards) then 1 else 0

namespace State

/-- The state stands between two places with the open calls `F`, or inside of a further call. -/
def Inside (F : Stack Nat) (lo hi : Nat) (s : State) : Prop :=
  s.frames = F ∧ lo ≤ s.ip ∧ s.ip < hi ∨ ∃ a, s.Above (F.push a)

variable {s : State} {F : Stack Nat} {a lo hi : Nat} {S : List Value} {w : World}

theorem At.inside (h : s.At a S F w) (hlo : lo ≤ a) (hhi : a < hi) : s.Inside F lo hi :=
  .inl ⟨h.frames_eq, h.ip_eq ▸ hlo, h.ip_eq ▸ hhi⟩

theorem Inside.above (h : s.Inside F lo hi) : s.Above F := by
  rcases h with ⟨rfl, -, -⟩ | ⟨a, h⟩
  · exact ⟨[], rfl⟩
  · exact h.of_push

end State

namespace Regime

variable (R : Regime) (p : Program)

def Has (v : Value) (ty : Ty) : Prop := R.typed → v.Has ty

/-- The faults that may end a run. -/
def Allows : Fault → Prop
  | .stackOverflow _ | .outOfBounds _ _ | .divisionByZero _ => True
  | .unresolvedCall name => name = "next_wall"
  | .undefinedVariable _ => ¬R.defined
  | .type (.teleport _) => ¬R.typed
  | _ => False

/-- The variables have the forms of the types that they are declared with. -/
def Typed (store : Store) : Prop :=
  ∀ name v ty, store.get? name = some v → (name, ty) ∈ p.declared → R.Has v ty

structure Stores (Γ : Context) (store : Store) : Prop where
  typed : R.Typed p store
  defined : R.defined → ∀ name ty, Γ.lookup? name = some ty → store.get? name ≠ none

/-- The variables stay typed and defined. -/
structure Keeps (w w' : World) : Prop where
  typed : R.Typed p w.store → R.Typed p w'.store
  defined : ∀ name, w.store.get? name ≠ none → w'.store.get? name ≠ none

/-- The variables are typed, and on the stack is what the next instruction takes. -/
structure Fine (s : State) : Prop where
  typed : R.Typed p s.store
  takes : ∀ mark, p.marks[s.ip]? = some mark →
    ∃ vs S, s.stack.items = vs ++ S ∧ List.Forall₂ R.Has vs mark.takes

def watch (base : State → Prop) : Watch where
  holds s := R.Fine p s ∧ base s
  allows := R.Allows
  counts s := p.discardedAt s.ip

/-- What the regime asks of a program, and a machine for it. -/
structure Governs (ls : List Line) (m : Machine) : Prop where
  coded : p.Coded ls
  ops : m.ops = (Line.code ls).link
  solid : p.Solid
  quiet : R.typed → p.Quiet
  consistent : R.typed → p.Consistent

/-- An expression of the type `ty` leaves its value. -/
def Leaves (ty : Ty) (b : Nat) (S : List Value) (F : Stack Nat) (w : World) (j j' : Nat)
    (t : State) : Prop :=
  ∃ vs left w', t.At b (vs ++ left ++ S) F w' ∧ R.Keeps p w w' ∧
    List.Forall₂ R.Has vs ty.values ∧ left.length + j = j' ∧ (R.typed → left = [])

/-- A statement goes on behind it, where the context is `Γ`. If it is quiet, it leaves nothing. -/
def Passes (Γ : Context) (quiet : Prop) (b : Nat) (S : List Value) (F : Stack Nat) (w : World)
    (j j' : Nat) (t : State) : Prop :=
  ∃ left w', t.At b (left ++ S) F w' ∧ R.Stores p Γ w'.store ∧ R.Keeps p w w' ∧
    left.length + j = j' ∧ (R.typed → quiet → left = [])

/-- A statement comes to a return with a value of the type `ty`. -/
def Returns (m : Machine) (ty : Ty) (quiet : Prop) (S : List Value) (F : Stack Nat) (w : World)
    (j j' : Nat) (t : State) : Prop :=
  ∃ b vs left w', t.At b (vs ++ left ++ S) F w' ∧ R.Keeps p w w' ∧
    List.Forall₂ R.Has vs ty.values ∧ left.length + j = j' ∧ (R.typed → quiet → left = []) ∧
    p.marks[b]? = some (.taking ty.values) ∧
    (m.ops[b]? = some .ret ∨ m.ops[b]? = some .retVoid ∧ ty = .void)

variable {R p} {Γ : Context} {w w' w'' : World} {base base' : State → Prop}

theorem Keeps.refl (w : World) : R.Keeps p w w := ⟨id, fun _ => id⟩

theorem Keeps.of_store_eq (h : w'.store = w.store) : R.Keeps p w w' := by
  constructor <;> rw [h]
  · exact id
  · exact fun _ => id

theorem Keeps.trans (h : R.Keeps p w w') (h' : R.Keeps p w' w'') : R.Keeps p w w'' :=
  ⟨h'.typed ∘ h.typed, fun name => h'.defined name ∘ h.defined name⟩

theorem Keeps.stores (h : R.Keeps p w w') (hw : R.Stores p Γ w.store) : R.Stores p Γ w'.store :=
  ⟨h.typed hw.typed, fun hd name ty hn => h.defined name (hw.defined hd name ty hn)⟩

theorem Stores.push (h : R.Stores p Γ w.store) : R.Stores p Γ.push w.store := ⟨h.typed, h.defined⟩

theorem watch_mono {m : Machine} {out : Prop} {Q : Nat → State → Prop} {n j : Nat} {s : State}
    (hbase : ∀ s, base s → base' s) (h : Runs (R.watch p base) m out Q n j s) :
    Runs (R.watch p base') m out Q n j s :=
  Runs.mono (W := R.watch p base) (fun s hs => ⟨hs.1, hbase s hs.2⟩) (fun _ => id) rfl
    (fun _ _ => id) h

/-- A value with more on top of it that was left unused: some value is on top, and in a typed
regime it is the value itself. -/
theorem settle {v : Value} {ty : Ty} {left X : List Value} (hl : R.typed → left = [])
    (hv : R.Has v ty) : ∃ y left', left ++ v :: X = y :: (left' ++ X) ∧ R.Has y ty ∧
      left'.length = left.length ∧ (R.typed → left' = []) := by
  cases left with
  | nil => exact ⟨v, [], rfl, hv, rfl, fun _ => rfl⟩
  | cons x xs =>
    refine ⟨x, xs ++ [v], by simp, fun ht => ?_, by simp, fun ht => ?_⟩
    · cases hl ht
    · cases hl ht

theorem single {vs : List Value} {ty : Ty} (hv : ty ≠ .void)
    (h : List.Forall₂ R.Has vs ty.values) : ∃ v, vs = [v] ∧ R.Has v ty := by
  rw [Ty.values_of_ne_void hv] at h
  obtain ⟨v, _, hv, hnil, rfl⟩ := List.forall₂_cons_right_iff.mp h
  obtain rfl := List.forall₂_nil_right_iff.mp hnil
  exact ⟨v, rfl, hv⟩

theorem values_of_has {v : Value} {ty : Ty} (hv : ty ≠ .void) (h : R.Has v ty) :
    List.Forall₂ R.Has [v] ty.values := by
  rw [Ty.values_of_ne_void hv]
  exact .cons h .nil

namespace Governs

variable {ls rest : List Line} {m : Machine} {l : Line} {a : Nat} {s : State} {S : List Value}
  {F : Stack Nat}

theorem op_at (h : R.Governs p ls m) (hl : StandsAt ls a (l :: rest)) :
    m.ops[a]? = some (Op.ofInstruction (Line.code ls) l.instruction) := by
  rw [h.ops]; exact Program.Coded.op_at hl

theorem holds_at (h : R.Governs p ls m) (vs : List Value) (base : State → Prop)
    (hl : StandsAt ls a (l :: rest))
    (hs : s.At a (vs ++ S) F w) (hvs : List.Forall₂ R.Has vs l.mark.takes)
    (hw : R.Typed p w.store) (hbase : base s) :
    m.ops[a]? = some (Op.ofInstruction (Line.code ls) l.instruction) ∧
      (R.watch p base).holds s := by
  have hmark := h.coded.mark_at hl
  obtain ⟨rfl, hitems, rfl, rfl⟩ := hs
  refine ⟨h.op_at hl, ⟨hw, ?_⟩, hbase⟩
  intro mark hm
  obtain rfl := Option.some.inj (hmark.symm.trans hm)
  exact ⟨vs, S, hitems, hvs⟩

theorem counts_at (h : R.Governs p ls m) (hl : StandsAt ls a (l :: rest)) (hs : s.ip = a) :
    (R.watch p base).counts s = if l.mark.discards then 1 else 0 := by
  simp [watch, Program.discardedAt, hs, h.coded.mark_at hl]

/-- A state at a line that leaves nothing unused is ready for its instruction. -/
theorem ready {tys : List Ty} {i : Instruction} (h : R.Governs p ls m) (vs : List Value)
    (base : State → Prop) (hl : StandsAt ls a (.taking tys i :: rest)) (hs : s.At a (vs ++ S) F w)
    (hvs : List.Forall₂ R.Has vs tys) (hw : R.Typed p w.store) (hbase : base s) :
    m.ops[a]? = some (Op.ofInstruction (Line.code ls) i) ∧ (R.watch p base).holds s ∧
      (R.watch p base).counts s = 0 :=
  let ⟨hop, hh⟩ := h.holds_at vs base hl hs hvs hw hbase
  ⟨hop, hh, h.counts_at hl hs.ip_eq⟩

theorem labelAddress?_eq (h : R.Governs p ls m) {name : String}
    (hl : StandsAt ls a (.plain (.label name) :: rest)) :
    (Line.code ls).labelAddress? name = some a := h.coded.labelAddress?_eq hl

/-- A variable gets a value of the type that it is declared with. -/
theorem keeps_assign (h : R.Governs p ls m) {name : String} {v : Value} {ty : Ty}
    (hd : (name, ty) ∈ p.declared) (hv : R.Has v ty) : R.Keeps p w (w.assign name v) where
  typed := by
    intro hw name' v' ty' hg hd' ht
    rw [World.get?_assign] at hg
    split at hg
    · next he =>
      subst he
      cases hg
      obtain rfl : ty' = ty := h.consistent ht _ hd' _ hd rfl
      exact hv ht
    · exact hw name' v' ty' hg hd' ht
  defined := by
    intro name' hg
    rw [World.get?_assign]
    split
    · exact nofun
    · exact hg

end Governs

theorem get?_assign_ne_none (w : World) (name : String) (v : Value) :
    (w.assign name v).store.get? name ≠ none := by
  rw [World.get?_assign, if_pos rfl]
  exact nofun

end Regime

end Labyrinth
