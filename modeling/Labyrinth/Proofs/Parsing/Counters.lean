import Labyrinth.Proofs.Parsing.Moments
import Labyrinth.Proofs.Parsing.Termination

/-!
# The counters

While the parser reads, `depth` and `height` stay within their limits, and no level is closed that is not open
(`Parser.counters_balanced`). A reader that gives a value leaves both counters as they were. One that fails may
leave them higher, but not lower, so the levels around it are still open when they are closed.
-/

namespace Labyrinth

namespace Cursor

variable {s t u : Cursor}

/-- The counters are within their limits. -/
structure Sound (s : Cursor) : Prop where
  depth_le : s.depth ≤ maxNesting
  depth_le_height : s.depth ≤ s.height
  height_le : s.height ≤ maxHeight

/-- The counters of `t` are those of `s`. -/
structure Level (s t : Cursor) : Prop where
  depth : t.depth = s.depth
  height : t.height = s.height

/-- The counters of `t` are not lower than those of `s`. -/
structure Below (s t : Cursor) : Prop where
  depth : s.depth ≤ t.depth
  height : s.height ≤ t.height

theorem Level.refl : s.Level s := ⟨rfl, rfl⟩

theorem Level.trans (h : s.Level t) (h' : t.Level u) : s.Level u :=
  ⟨h'.depth.trans h.depth, h'.height.trans h.height⟩

theorem Level.sound (h : s.Level t) (hs : s.Sound) : t.Sound where
  depth_le := h.depth ▸ hs.depth_le
  depth_le_height := h.depth ▸ h.height ▸ hs.depth_le_height
  height_le := h.height ▸ hs.height_le

theorem Level.below (h : s.Level t) : s.Below t := ⟨h.depth.ge, h.height.ge⟩

theorem Below.refl : s.Below s := ⟨le_rfl, le_rfl⟩

theorem Below.trans (h : s.Below t) (h' : t.Below u) : s.Below u :=
  ⟨h.depth.trans h'.depth, h.height.trans h'.height⟩

end Cursor

namespace Parser

variable {α β : Type} {s t : Cursor}

/-- What holds of the end of a reader that gives a value, or else of the end of one that fails. -/
def Ends (P : α → Cursor → Prop) (E : Cursor → Prop) : EStateM.Result SyntaxError Cursor α → Prop
  | .ok a t => P a t
  | .error _ t => E t

/-- How the counters may differ behind a reader. Only the rest of a chain leaves its operators counted. -/
def Task.Gives : Task → Cursor → Cursor → Prop
  | chain _ _, s, t => t.depth = s.depth ∧ s.height ≤ t.height
  | _, s, t => s.Level t

theorem Task.Gives.below {k : Task} (h : k.Gives s t) : s.Below t := by
  cases k with
  | chain n left => exact ⟨h.1.ge, h.2⟩
  | _ => exact Cursor.Level.below h

/-- A reader keeps the counters within their limits, and leaves none lower. -/
def Settles (k : Task) (s : Cursor) (o : EStateM.Result SyntaxError Cursor k.Value) : Prop :=
  Ends (fun _ t => t.Sound ∧ k.Gives s t) (fun t => t.Sound ∧ s.Below t) o

namespace Steps

/-- From `s` on every level that is closed is open and every height that is restored is within the limits. If the
steps give a value, `P` holds then, and if they fail, `E`. -/
def Fine {α : Type} : Steps α → Cursor → (α → Cursor → Prop) → (Cursor → Prop) → Prop
  | done a, s, P, _ => P a s
  | stop _, s, _, E => E s
  | take r _ next, s, P, E => (∀ a t, r s = .ok a t → (next a).Fine t P E) ∧ ∀ e t, r s = .error e t → E t
  | enter next, s, P, E => next.Fine { s with depth := s.depth + 1, height := s.height + 1 } P E ∧ E s
  | leave next, s, P, E => (0 < s.depth ∧ 0 < s.height) ∧ next.Fine (Parser.leave s) P E
  | raise next, s, P, E => next.Fine { s with height := s.height + 1 } P E ∧ E s
  | restore height next, s, P, E => (s.depth ≤ height ∧ height ≤ maxHeight) ∧ next.Fine { s with height } P E
  | call k next, s, P, E => (∀ a t, k.Gives s t → (next a).Fine t P E) ∧ ∀ t, s.Below t → E t
  | attempt inner next, s, P, E =>
    inner.Fine s (fun a t => (next (.ok a)).Fine t P E) fun t => ∀ e, (next (.error e)).Fine t P E

theorem Fine.mono {x : Steps α} {P Q : α → Cursor → Prop} {E F : Cursor → Prop} (h : x.Fine s P E)
    (hP : ∀ a t, P a t → Q a t) (hE : ∀ t, E t → F t) : x.Fine s Q F := by
  induction x generalizing s E F with
  | done a => exact hP a s h
  | stop e => exact hE s h
  | take r _ next ih => exact ⟨fun a t ht => ih a (h.1 a t ht) hP hE, fun e t ht => hE t (h.2 e t ht)⟩
  | enter next ih => exact ⟨ih h.1 hP hE, hE s h.2⟩
  | leave next ih => exact ⟨h.1, ih h.2 hP hE⟩
  | raise next ih => exact ⟨ih h.1 hP hE, hE s h.2⟩
  | restore height next ih => exact ⟨h.1, ih h.2 hP hE⟩
  | call k next ih => exact ⟨fun a t ht => ih a (h.1 a t ht) hP hE, fun t ht => hE t (h.2 t ht)⟩
  | attempt inner next ihinner ih =>
    exact ihinner h (fun a t ht => ih _ ht hP hE) fun t ht e => ih _ (ht e) hP hE

theorem Fine.bind {x : Steps α} {f : α → Steps β} {P : β → Cursor → Prop} {E : Cursor → Prop}
    (h : x.Fine s (fun a t => (f a).Fine t P E) E) : (x >>= f).Fine s P E := by
  induction x generalizing s P E with
  | done a => exact h
  | stop e => exact h
  | take r _ next ih => exact ⟨fun a t ht => ih a (h.1 a t ht), h.2⟩
  | enter next ih => exact ⟨ih h.1, h.2⟩
  | leave next ih => exact ⟨h.1, ih h.2⟩
  | raise next ih => exact ⟨ih h.1, h.2⟩
  | restore height next ih => exact ⟨h.1, ih h.2⟩
  | call k next ih => exact ⟨fun a t ht => ih a (h.1 a t ht), h.2⟩
  | attempt inner next _ ih => exact Fine.mono (x := inner) h (fun a t ht => ih _ ht) fun t ht e => ih _ (ht e)

/-! ### Steps that are done -/

theorem sound_enter {u : PUnit} (hs : s.Sound) (h : Parser.enter s = .ok u t) : t.Sound := by
  obtain ⟨hd, hh, rfl⟩ := enter_eq_ok h
  exact ⟨hd, Nat.succ_le_succ hs.depth_le_height, hh⟩

theorem sound_leave (hs : s.Sound) : (Parser.leave s).Sound where
  depth_le := Nat.sub_le_of_le_add (Nat.le_succ_of_le hs.depth_le)
  depth_le_height := Nat.sub_le_sub_right hs.depth_le_height 1
  height_le := Nat.sub_le_of_le_add (Nat.le_succ_of_le hs.height_le)

theorem raise_eq_ok {u : Unit} (h : Parser.raise s = .ok u t) :
    s.height < maxHeight ∧ t = { s with height := s.height + 1 } := by
  by_cases hh : maxHeight ≤ s.height
  · cases (raise_of_le hh).symm.trans h
  · cases (raise_of_lt hh).symm.trans h
    exact ⟨Nat.lt_of_not_le hh, rfl⟩

theorem sound_raise {u : Unit} (hs : s.Sound) (h : Parser.raise s = .ok u t) : t.Sound := by
  obtain ⟨hh, rfl⟩ := raise_eq_ok h
  exact ⟨hs.depth_le, Nat.le_succ_of_le hs.depth_le_height, hh⟩

theorem sound_restore {height : Nat} (hs : s.Sound) (h : s.depth ≤ height ∧ height ≤ maxHeight) :
    Cursor.Sound { s with height } :=
  ⟨hs.depth_le, h.1, h.2⟩

theorem level_of_flat {r : Parser α} {a : α} (flat : r.Flat) (h : r s = .ok a t) : s.Level t := by
  have hflat := flat s
  rw [h] at hflat
  exact ⟨hflat.1, hflat.2⟩

theorem level_of_flat_error {r : Parser α} {e : SyntaxError} (flat : r.Flat) (h : r s = .error e t) :
    s.Level t := by
  have hflat := flat s
  rw [h] at hflat
  exact ⟨hflat.1, hflat.2⟩

theorem below_enter (s : Cursor) : s.Below { s with depth := s.depth + 1, height := s.height + 1 } :=
  ⟨Nat.le_succ _, Nat.le_succ _⟩

/-- A level that was opened can be closed. -/
theorem level_leave (h : Cursor.Level { s with depth := s.depth + 1, height := s.height + 1 } t) :
    (0 < t.depth ∧ 0 < t.height) ∧ s.Level (Parser.leave t) := by
  have hd : t.depth = s.depth + 1 := h.depth
  have hh : t.height = s.height + 1 := h.height
  exact ⟨⟨by omega, by omega⟩, Nat.sub_eq_of_eq_add hd, Nat.sub_eq_of_eq_add hh⟩

/-- What fails inside of a level leaves it open, so it can be closed. -/
theorem below_leave (h : Cursor.Below { s with depth := s.depth + 1, height := s.height + 1 } t) :
    (0 < t.depth ∧ 0 < t.height) ∧ s.Below (Parser.leave t) := by
  have hd : s.depth + 1 ≤ t.depth := h.depth
  have hh : s.height + 1 ≤ t.height := h.height
  exact ⟨⟨by omega, by omega⟩, Nat.le_sub_of_add_le hd, Nat.le_sub_of_add_le hh⟩

/-- Steps that are fine are done so, if the calls are. -/
theorem Fine.run {call : ∀ k : Task, Parser k.Value} {x : Steps α} {P : α → Cursor → Prop} {E : Cursor → Prop}
    (hcall : ∀ k s, s.Sound → Settles k s (call k s)) (hs : s.Sound) (h : x.Fine s P E) :
    Ends (fun a t => t.Sound ∧ P a t) (fun t => t.Sound ∧ E t) (x.run call s) := by
  induction x generalizing s E with
  | done a => exact ⟨hs, h⟩
  | stop e => exact ⟨hs, h⟩
  | take r flat next ih =>
    rw [Steps.run]
    cases hr : r s with
    | error e t =>
      rw [bind_of_error hr]
      exact ⟨(level_of_flat_error flat hr).sound hs, h.2 e t hr⟩
    | ok a t =>
      rw [bind_of_ok hr]
      exact ih a ((level_of_flat flat hr).sound hs) (h.1 a t hr)
  | enter next ih =>
    rw [Steps.run]
    by_cases hd : maxNesting ≤ s.depth ∨ maxHeight ≤ s.height
    · rw [bind_of_error (enter_of_le hd)]
      exact ⟨hs, h.2⟩
    · have ht := enter_of_lt hd
      rw [bind_of_ok ht]
      exact ih (sound_enter hs ht) h.1
  | leave next ih => exact ih (sound_leave hs) h.2
  | raise next ih =>
    rw [Steps.run]
    by_cases hh : maxHeight ≤ s.height
    · rw [bind_of_error (raise_of_le hh)]
      exact ⟨hs, h.2⟩
    · have ht := raise_of_lt hh
      rw [bind_of_ok ht]
      exact ih (sound_raise hs ht) h.1
  | restore height next ih => exact ih (sound_restore hs h.1) h.2
  | call k next ih =>
    rw [Steps.run]
    have hk := hcall k s hs
    cases hr : call k s with
    | error e t =>
      rw [hr] at hk
      rw [bind_of_error hr]
      exact ⟨hk.1, h.2 t hk.2⟩
    | ok a t =>
      rw [hr] at hk
      rw [bind_of_ok hr]
      exact ih a hk.1 (h.1 a t hk.2)
  | attempt inner next ihinner ih =>
    have hinner := ihinner hs h
    simp only [Steps.run, afterwards]
    split
    · next hr =>
      rw [hr] at hinner
      exact ih _ hinner.1 hinner.2
    · next hr =>
      rw [hr] at hinner
      exact ih _ hinner.1 (hinner.2 _)

/-! ### Readers that are fine -/

/-- The steps leave the counters as they are, or fail and leave them no lower. -/
def Even (x : Steps α) : Prop := ∀ s, x.Fine s (fun _ t => s.Level t) s.Below

namespace Even

theorem pure (a : α) : Even (pure a) := fun _ => .refl

theorem part {r : Parser α} {flat : r.Flat} : Even (part r flat) :=
  fun _ => ⟨fun _ _ ht => level_of_flat flat ht, fun _ _ ht => (level_of_flat_error flat ht).below⟩

theorem andThen {x : Steps α} {f : α → Steps β} {P : β → Cursor → Prop} {E : Cursor → Prop} (hx : Even x)
    (hf : ∀ a t, s.Level t → (f a).Fine t P E) (hE : ∀ t, s.Below t → E t) : (x >>= f).Fine s P E :=
  .bind (.mono (hx s) hf hE)

theorem bind {x : Steps α} {f : α → Steps β} (hx : Even x) (hf : ∀ a, Even (f a)) : Even (x >>= f) := by
  refine fun s => hx.andThen (fun a t ht => ?_) fun _ => id
  exact .mono (hf a t) (fun _ _ hu => ht.trans hu) fun _ hu => ht.below.trans hu

theorem map {x : Steps α} {f : α → β} (hx : Even x) : Even (f <$> x) := bind hx fun a => pure (f a)

theorem read {k : Task} (hk : ∀ n left, k ≠ .chain n left) : Even (read k) := by
  refine fun s => ⟨fun _ t ht => ?_, fun _ ht => ht⟩
  cases k with
  | chain n left => exact absurd rfl (hk n left)
  | _ => exact ht

theorem commaStep {item : Steps α} {again : Steps (List α)} (hitem : Even item) (hagain : Even again) :
    Even (commaStep item again) := by
  refine .bind hitem fun a => .bind .part fun s => ?_
  split
  · exact .bind .part fun _ => .bind hagain fun _ => .pure _
  · exact .pure _

theorem enclosed {items : Steps (List α)} (hitems : Even items) : Even (enclosed items) := by
  refine .bind .part fun _ => .bind .part fun s => ?_
  split
  · exact .bind (.pure _) fun _ => .bind .part fun _ => .pure _
  · exact .bind hitems fun _ => .bind .part fun _ => .pure _

/-- Steps inside a level that is closed if they do not fail. -/
theorem inside {x : Steps α} {f : α → Steps β} (hx : Even x) (hf : ∀ a, Even (f a)) :
    Even (enter do let a ← x; leave (f a)) := by
  refine fun s => ⟨hx.andThen (fun a t ht => ?_) fun _ => (below_enter s).trans, .refl⟩
  obtain ⟨hpos, hlevel⟩ := level_leave ht
  exact ⟨hpos, .mono (hf a _) (fun _ _ hu => hlevel.trans hu) fun _ hu => hlevel.below.trans hu⟩

theorem nested {x : Steps α} (hx : Even x) : Even (nested x) := by
  refine fun s => ⟨.mono (x := x) (hx _) (fun a t ht => level_leave ht) fun t ht e => below_leave ht, .refl⟩

end Even

theorem Fine.look {f : Cursor → Steps α} {P : α → Cursor → Prop} {E : Cursor → Prop} (h : (f s).Fine s P E) :
    (look >>= f).Fine s P E := by
  refine .bind ⟨fun t u hu => ?_, nofun⟩
  cases hu
  exact h

/-- Every reader is fine. -/
theorem fine_steps (k : Task) (hs : s.Sound) : (steps k).Fine s (fun _ t => k.Gives s t) s.Below := by
  cases k with
  | program =>
    refine (Even.bind .part fun s => ?_ : Even (steps .program)) s
    split
    · exact .pure _
    · exact .bind (.read nofun) fun _ => .bind (.read nofun) fun _ => .pure _
  | decl =>
    refine (Even.bind .part fun s => ?_ : Even (steps .decl)) s
    split
    · exact .map (.read nofun)
    · exact .map (.read nofun)
  | function =>
    exact (.bind .part fun _ => .bind .part fun _ => .bind .part fun _ => .bind .part fun _ =>
      .bind (.enclosed (.read nofun)) fun _ => .bind (.read nofun) fun _ => .pure _ : Even (steps .function)) s
  | params => exact (.commaStep .part (.read nofun) : Even (steps .params)) s
  | block =>
    exact (.bind .part fun _ => .inside (.read nofun) fun _ => .bind .part fun _ => .pure _ :
      Even (steps .block)) s
  | statements =>
    refine (Even.bind .part fun s => ?_ : Even (steps .statements)) s
    split
    · exact .pure _
    · exact .part
    · exact .bind (.read nofun) fun _ => .bind (.read nofun) fun _ => .pure _
  | statement =>
    refine (Even.bind .part fun s => ?_ : Even (steps .statement)) s
    split
    · exact .read nofun
    · exact .read nofun
    · exact .read nofun
    · exact .bind .part fun _ => .bind (.read nofun) fun _ => .bind (.read nofun) fun _ => .pure _
    · exact .bind .part fun _ => .bind (.read nofun) fun _ => .bind (.read nofun) fun _ => .pure _
    · refine .bind .part fun _ => .bind .part fun t => ?_
      split
      · exact .bind (.pure _) fun _ => .bind .part fun _ => .pure _
      · exact .bind (.map (.read nofun)) fun _ => .bind .part fun _ => .pure _
    · exact .bind (.read nofun) fun _ => .pure _
    · split
      · exact .bind .part fun _ => .bind .part fun _ => .bind (.read nofun) fun _ => .bind .part fun _ => .pure _
      · exact .bind (.read nofun) fun _ => .bind .part fun _ => .pure _
    · exact .bind (.read nofun) fun _ => .bind .part fun _ => .pure _
  | declaration =>
    exact (.bind .part fun _ => .bind .part fun _ => .bind .part fun _ => .bind .part fun _ =>
      .bind (.read nofun) fun _ => .bind .part fun _ => .pure _ : Even (steps .declaration)) s
  | condition =>
    exact (.bind .part fun _ => .bind (.read nofun) fun _ => .bind .part fun _ => .pure _ :
      Even (steps .condition)) s
  | level n =>
    show (if n < 6 then _ else _ : Steps Expr).Fine s (fun _ t => s.Level t) s.Below
    split
    · have hnext : Even (read (.level (n + 1))) := .read nofun
      refine hnext.andThen (fun first t ht => .look ⟨fun whole u hu => ?_, fun u hu => ht.below.trans hu⟩) fun _ => id
      -- the height goes back to what it was in front of the first operator
      have hd : u.depth = t.depth := hu.1
      exact ⟨⟨hd ▸ (ht.sound hs).depth_le_height, (ht.sound hs).height_le⟩, hd.trans ht.depth, ht.height⟩
    · exact (Even.read nofun : Even (read .operand)) s
  | chain n left =>
    refine .look ?_
    split
    · exact ⟨rfl, le_rfl⟩
    · have hraised : s.Below { s with height := s.height + 1 } := ⟨le_rfl, Nat.le_succ _⟩
      have hnext : Even (read (.level (n + 1))) := .read nofun
      refine ⟨?_, .refl⟩
      refine Even.part.andThen (fun _ t ht => ?_) fun _ => hraised.trans
      refine hnext.andThen (fun right u hu => ?_) fun _ hu => hraised.trans (ht.below.trans hu)
      have hlevel := ht.trans hu
      refine ⟨fun e v hv => ⟨hv.1.trans hlevel.depth, ?_⟩, fun v hv => hraised.trans (hlevel.below.trans hv)⟩
      exact (hraised.trans (hlevel.below.trans hv.below)).height
  | operand =>
    refine (Even.nested (.bind .part fun s => ?_) : Even (steps .operand)) s
    split
    · exact .bind .part fun _ => .bind (.read nofun) fun _ => .pure _
    · exact .read nofun
  | primary =>
    refine (Even.bind .part fun s => ?_ : Even (steps .primary)) s
    split
    · exact .bind .part fun _ => .part
    · exact .bind .part fun _ => .pure _
    · refine .bind .part fun _ => .bind .part fun t => ?_
      split
      · exact .bind (.enclosed (.read nofun)) fun _ => .pure _
      · exact .pure _
    · exact .bind .part fun _ => .bind (.read nofun) fun _ => .bind .part fun _ => .pure _
    · exact .part
  | args => exact (.commaStep (.read nofun) (.read nofun) : Even (steps .args)) s

end Steps

/-! ### Moments -/

open Classical in
/-- The readers, where they are called onward from `a`. Where they are not, they fail at once. -/
noncomputable def runOnward (a : Activity) (k : Task) : Parser k.Value := fun s =>
  if Onward a ⟨k, s⟩ then run k s else .error ⟨.tooDeep, s.loc⟩ s

theorem settles_run (k : Task) (s : Cursor) (hs : s.Sound) : Settles k s (run k s) := by
  generalize ha : (⟨k, s⟩ : Activity) = a
  induction a using wellFounded_onward.induction generalizing k s with
  | _ a ih =>
    subst ha
    have hsame : Same s (run k) (body (runOnward ⟨k, s⟩) k) := body_congr fun k' t h => if_pos h
    have hcall (k' : Task) (t : Cursor) (ht : t.Sound) : Settles k' t (runOnward ⟨k, s⟩ k' t) := by
      unfold runOnward
      split
      · next honward => exact ih ⟨k', t⟩ honward k' t ht rfl
      · exact ⟨ht, .refl⟩
    have hrun := (Steps.fine_steps k hs).run hcall hs
    rwa [show (steps k).run _ = _ from does_steps k, hsame] at hrun

/-- The counters are within their limits, and what is still to be done is fine. -/
def Moment.Safe (m : Moment) : Prop :=
  m.cursor.Sound ∧ ∃ P E, m.steps.Fine m.cursor P E

open Steps in
theorem Next.safe {m m' : Moment} (h : Next m m') (hm : m.Safe) : m'.Safe := by
  obtain ⟨hs, P, E, hfine⟩ := hm
  cases h with
  | @take _ _ r flat next s t a hr => exact ⟨(level_of_flat flat hr).sound hs, P, E, hfine.1 a t hr⟩
  | enter ht =>
    refine ⟨sound_enter hs ht, P, E, ?_⟩
    obtain ⟨-, -, rfl⟩ := enter_eq_ok ht
    exact hfine.1
  | leave => exact ⟨sound_leave hs, P, E, hfine.2⟩
  | raise ht =>
    refine ⟨sound_raise hs ht, P, E, ?_⟩
    obtain ⟨-, rfl⟩ := raise_eq_ok ht
    exact hfine.1
  | restore => exact ⟨sound_restore hs hfine.1, P, E, hfine.2⟩
  | @intoCall _ k next s => exact ⟨hs, _, _, fine_steps k hs⟩
  | @pastCall _ k next s t a hr =>
    have ht := settles_run k s hs
    rw [hr] at ht
    exact ⟨ht.1, P, E, hfine.1 a t ht.2⟩
  | intoAttempt => exact ⟨hs, _, _, hfine⟩
  | @pastValue _ _ inner next s t a hr =>
    have ht := Fine.run (x := inner) settles_run hs hfine
    rw [hr] at ht
    exact ⟨ht.1, P, E, ht.2⟩
  | @pastError _ _ inner next s t e hr =>
    have ht := Fine.run (x := inner) settles_run hs hfine
    rw [hr] at ht
    exact ⟨ht.1, P, E, ht.2 _⟩

theorem safe_of_reaches {ls : List Lexeme} {m : Moment}
    (h : Relation.ReflTransGen Next ⟨steps .program, { lexemes := ls }⟩ m) : m.Safe := by
  induction h with
  | refl =>
    have hs : Cursor.Sound { lexemes := ls } := ⟨Nat.zero_le _, le_rfl, Nat.zero_le _⟩
    exact ⟨hs, _, _, Steps.fine_steps .program hs⟩
  | tail _ hnext ih => exact hnext.safe ih

/-- The readers do their steps, one after the other. Whatever moment the parser comes to, the counters are within
their limits, a level that is closed then is open, also where what was read in it has failed, and a reader that
is called then leaves both counters as they are if it gives a value. -/
theorem counters_balanced :
    (∀ k, (steps k).run run = run k) ∧
    ∀ ls (m : Moment), Relation.ReflTransGen Next ⟨steps .program, { lexemes := ls }⟩ m →
      (m.cursor.depth ≤ maxNesting ∧ m.cursor.depth ≤ m.cursor.height ∧ m.cursor.height ≤ maxHeight) ∧
      (∀ next, m.steps = .leave next → 0 < m.cursor.depth ∧ 0 < m.cursor.height) ∧
      (∀ k next a t, m.steps = .call k next → (∀ n left, k ≠ .chain n left) → run k m.cursor = .ok a t →
        t.depth = m.cursor.depth ∧ t.height = m.cursor.height) ∧
      ∀ a t, m.steps.run run m.cursor = .ok a t → Relation.ReflTransGen Next m ⟨.done a, t⟩ := by
  refine ⟨run_steps, fun ls m hm => ?_⟩
  obtain ⟨hs, P, E, hfine⟩ := safe_of_reaches hm
  refine ⟨⟨hs.depth_le, hs.depth_le_height, hs.height_le⟩, fun next hnext => ?_, fun k next a t _ hk hr => ?_,
    fun a t h => Steps.reaches_done h⟩
  · rw [hnext] at hfine
    exact hfine.1
  · have ht := settles_run k m.cursor hs
    rw [hr] at ht
    have hlevel := ht.2
    cases k with
    | chain n left => exact absurd rfl (hk n left)
    | _ => exact ⟨hlevel.depth, hlevel.height⟩

/-- A sum in a parenthesis, without its second operand. -/
def brokenSum : List Lexeme :=
  [⟨.punctuation .openParen, .start⟩, ⟨.number "1", .start⟩, ⟨.operator .plus, .start⟩, ⟨.endOfInput, .start⟩]

/-- The level of the parenthesis is closed while the operator of the sum is still counted. -/
theorem reaches_leave : ∃ m : Moment, Relation.ReflTransGen Next ⟨steps .program, { lexemes := brokenSum }⟩ m ∧
    (∃ next, m.steps = .leave next) ∧ m.cursor.depth = 1 ∧ m.cursor.height = 2 := by
  have hlevels (n : Nat) (hn : n ≤ 6) : Relation.ReflTransGen Next ⟨steps (.level 0), { lexemes := brokenSum }⟩
      ⟨steps (.level n), { lexemes := brokenSum }⟩ := by
    induction n with
    | zero => exact .refl
    | succ n ih =>
      have hlevel : steps (.level n) =
          .chainOf (.read (.level (n + 1))) fun left => .read (.chain n left) := if_pos hn
      refine (ih (Nat.le_of_succ_le hn)).tail ?_
      rw [hlevel]
      exact .intoCall
  have hfails : (Steps.prefixedOf (.read .operand) (.read .primary)).run run ⟨brokenSum, 1, 1⟩ =
      .error ⟨.unexpected .expression .endOfInput, .start⟩ ⟨[⟨.endOfInput, .start⟩], 1, 2⟩ := rfl
  exact ⟨_, .head (.take rfl) <| .head .intoCall <| .head (.take rfl) <| .head .intoCall <| .head (.take rfl) <|
    .head .intoCall <| (hlevels 6 le_rfl).trans <| .head .intoCall <| .head (.enter rfl) <|
    .head (.pastError hfails) .refl, ⟨_, rfl⟩, rfl, rfl⟩

/-- A number as a statement. -/
def number : List Lexeme :=
  [⟨.number "1", .start⟩, ⟨.punctuation .semicolon, .start⟩, ⟨.endOfInput, .start⟩]

theorem reaches_call : ∃ m : Moment, Relation.ReflTransGen Next ⟨steps .program, { lexemes := number }⟩ m ∧
    (∃ next, m.steps = .call (.level 0) next) ∧ ∃ a t, run (.level 0) m.cursor = .ok a t :=
  ⟨_, .head (.take rfl) <| .head .intoCall <| .head (.take rfl) <| .head .intoCall <| .head (.take rfl) .refl,
    ⟨_, rfl⟩, _, _, rfl⟩

theorem counters_balanced_reached :
    (∃ m : Moment, Relation.ReflTransGen Next ⟨steps .program, { lexemes := brokenSum }⟩ m ∧
      (∃ next, m.steps = .leave next) ∧ m.cursor.depth < m.cursor.height ∧ 0 < m.cursor.depth ∧
      m.cursor.height ≤ maxHeight) ∧
    ∃ m : Moment, Relation.ReflTransGen Next ⟨steps .program, { lexemes := number }⟩ m ∧
      ∃ a t, run (.level 0) m.cursor = .ok a t ∧ t.depth = m.cursor.depth ∧ t.height = m.cursor.height := by
  obtain ⟨m, hm, ⟨next, hnext⟩, hd, hh⟩ := reaches_leave
  obtain ⟨⟨-, -, hlimit⟩, hleave, -⟩ := counters_balanced.2 brokenSum m hm
  obtain ⟨m', hm', ⟨next', hnext'⟩, a, t, hr⟩ := reaches_call
  obtain ⟨-, -, hcall, -⟩ := counters_balanced.2 number m' hm'
  refine ⟨⟨m, hm, ⟨next, hnext⟩, by omega, (hleave next hnext).1, hlimit⟩, m', hm', a, t, hr, ?_⟩
  exact hcall (.level 0) next' a t hnext' nofun hr

end Parser

end Labyrinth
