import Labyrinth.Proofs.Renaming.Spots
import Labyrinth.Proofs.Code.Flow

/-!
# Where a variable is in scope

A `View` says what is known at a place of the code about the variables of one name: whether one is in
scope, and whether it is the one that is renamed. Control comes to a place where one is in scope from such
a place, or from where it gets its value (`View.Leads`), and the name is read only there (`View.Fits`).
The views are put together along the statements (`Line.Viewed`).
-/

namespace Labyrinth

open Code

/-- Whether an instruction holds the name of a variable or function that it uses. -/
def Instruction.named : Instruction → Bool
  | load _ | store _ | call _ _ => true
  | _ => false

inductive View where
  /-- No variable of the name is in scope. -/
  | hidden
  /-- There is one, and it keeps its name. -/
  | plain
  /-- The variable that is renamed gets its first value. -/
  | opening
  /-- The variable that is renamed is in scope. -/
  | renamed

namespace View

/-- Whether the instruction at the place is renamed. -/
def renames : View → Bool
  | opening | renamed => true
  | hidden | plain => false

/-- Behind the instruction `i` at a place with the view `v`, the other view is right. -/
def Leads (x : String) (i : Instruction) (v : View) : View → Prop
  | hidden | opening => True
  | plain => v = plain ∨ v = hidden ∧ i = .store x
  | renamed => v.renames

/-- The view `u` asks for nothing that `v` does not ask for. -/
def Below (u v : View) : Prop := u = hidden ∨ u = opening ∨ u = v

/-- The instruction may stand at a place with the view. -/
structure Fits (p : Program) (x : String) (v : View) (i : Instruction) : Prop where
  reads : ∀ name, i = .load name →
    name ∈ p.declared.map Prod.fst ∧ (name = x → v = plain ∨ v = renamed)
  writes : ∀ name, i = .store name → name ∈ p.declared.map Prod.fst
  calls : ∀ name argc, i = .call name argc → name ∈ p.callees
  opens : v = opening → i = .store x

variable {p : Program} {x : String} {i : Instruction} {u v w : View}

theorem Below.refl (v : View) : v.Below v := .inr (.inr rfl)

theorem Below.trans (h : u.Below v) (h' : v.Below w) : u.Below w := by
  rcases h with h | h | rfl
  · exact .inl h
  · exact .inr (.inl h)
  · exact h'

theorem hidden_below (v : View) : hidden.Below v := .inl rfl

theorem Leads.refl (x : String) (i : Instruction) (v : View) : v.Leads x i v := by
  cases v <;> first | trivial | exact .inl rfl

theorem Leads.below (h : v.Leads x i w) (hu : u.Below w) : v.Leads x i u := by
  rcases hu with rfl | rfl | rfl
  · trivial
  · trivial
  · exact h

theorem Below.leads (h : u.Below v) (i : Instruction) : v.Leads x i u := (Leads.refl x i v).below h

theorem Fits.of_not_named (hv : v ≠ opening) (hi : i.named = false) : v.Fits p x i where
  reads := by rintro name rfl; cases hi
  writes := by rintro name rfl; cases hi
  calls := by rintro name argc rfl; cases hi
  opens := fun h => absurd h hv

theorem Fits.load {name : String} {ty : Ty} (hv : v ≠ opening) (hd : (name, ty) ∈ p.declared)
    (hread : name = x → v = plain ∨ v = renamed) : v.Fits p x (.load name) where
  reads := by
    rintro name' ⟨⟩
    exact ⟨List.mem_map_of_mem hd, hread⟩
  writes := by rintro name' ⟨⟩
  calls := by rintro name' argc ⟨⟩
  opens := fun h => absurd h hv

theorem Fits.store {name : String} {ty : Ty} (hv : v = opening → name = x)
    (hd : (name, ty) ∈ p.declared) : v.Fits p x (.store name) where
  reads := by rintro name' ⟨⟩
  writes := by
    rintro name' ⟨⟩
    exact List.mem_map_of_mem hd
  calls := by rintro name' argc ⟨⟩
  opens := fun h => congrArg _ (hv h)

theorem Fits.call {name : String} {argc : Nat} (hv : v ≠ opening) (hname : name ∈ p.callees) :
    v.Fits p x (.call name argc) where
  reads := by rintro name' ⟨⟩
  writes := by rintro name' ⟨⟩
  calls := by
    rintro name' argc' ⟨⟩
    exact hname
  opens := fun h => absurd h hv

end View

/-- What a view of contexts has to keep to, of which all rename or none does. -/
structure Viewing (x : String) (r : Bool) (view : Context → View) : Prop where
  closed : ∀ Γ, view Γ ≠ .opening
  renames : ∀ Γ, (view Γ).renames = r
  reads : ∀ Γ ty, Γ.lookup? x = some ty → view Γ = .plain ∨ view Γ = .renamed
  push : ∀ Γ, view Γ.push = view Γ
  declare : ∀ Γ name ty, (view Γ).Leads x (.store name) (view (Γ.withVariable name ty))
  keeps : ∀ Γ name ty, (view Γ).Below (view (Γ.withVariable name ty))

def Context.view (x : String) (Γ : Context) : View := if (Γ.lookup? x).isSome then .plain else .hidden

theorem Context.viewing (x : String) : Viewing x false (view x) where
  closed := fun Γ => by unfold view; split <;> exact nofun
  renames := fun Γ => by unfold view; split <;> rfl
  reads := fun Γ ty h => by rw [view, h]; exact .inl rfl
  push := fun Γ => rfl
  declare := fun Γ name ty => by
    unfold view
    rw [lookup?_withVariable]
    by_cases hx : x = name
    · subst hx
      rw [if_pos rfl]
      cases Γ.lookup? x with
      | none => exact .inr ⟨rfl, rfl⟩
      | some ty => exact .inl rfl
    · rw [if_neg hx]
      exact .refl ..
  keeps := fun Γ name ty => by
    unfold view
    rw [lookup?_withVariable]
    cases Γ.lookup? x with
    | none => exact View.hidden_below _
    | some ty' =>
      have hsome : (if x = name then some ty else some ty').isSome := by split <;> rfl
      rw [if_pos hsome]
      exact .refl _

/-- The view inside the scope of the variable that is renamed. -/
theorem View.viewing_renamed (x : String) : Viewing x true fun _ => View.renamed where
  closed := fun _ => nofun
  renames := fun _ => rfl
  reads := fun _ _ _ => .inr rfl
  push := fun _ => rfl
  declare := fun _ _ _ => rfl
  keeps := fun _ _ _ => .refl _

variable {p : Program} {Γ : Context} {ls c d rest : List Line} {x : String} {a b e : Nat}
  {u v v' : View} {V W : Nat → View}

/-! ### Expressions -/

namespace Line

/-- Lines that may stand at places with the view. -/
def Suit (p : Program) (x : String) (v : View) (c : List Line) : Prop :=
  ∀ l ∈ c, v.Fits p x l.instruction

theorem suit_append : Suit p x v (c ++ d) ↔ Suit p x v c ∧ Suit p x v d := List.forall_mem_append

theorem suit_single {l : Line} (h : v.Fits p x l.instruction) : Suit p x v [l] :=
  List.forall_mem_singleton.mpr h

theorem suit_widening (hv : v ≠ .opening) (slot ty : Ty) : Suit p x v (widening slot ty) := by
  unfold widening
  split
  · exact suit_single (.of_not_named hv rfl)
  · exact List.forall_mem_nil _

theorem Suit.fits (hc : Suit p x v c) (hl : StandsAt ls a c) {q : Nat} {i : Instruction} (hq : a ≤ q)
    (hq' : q < a + c.length) (hi : (code ls)[q]? = some i) : v.Fits p x i := by
  obtain ⟨k, rfl⟩ := Nat.exists_eq_add_of_le hq
  have hk : k < c.length := by omega
  rw [getElem?_code, hl.getElem?_add hk, List.getElem?_eq_getElem hk] at hi
  cases hi
  exact hc _ (List.getElem_mem hk)

end Line

open Line

mutual

theorem Expr.Coded.suit (hv : v ≠ .opening)
    (hreads : ∀ ty, Γ.lookup? x = some ty → v = .plain ∨ v = .renamed) {e : Expr} {ty : Ty}
    {c : List Line} : e.Coded p Γ ty c → Suit p x v c
  | .int => suit_single (.of_not_named hv rfl)
  | .float => suit_single (.of_not_named hv rfl)
  | .bool => suit_single (.of_not_named hv rfl)
  | .var hn hd => suit_single (.load hv hd fun he => hreads _ (he ▸ hn))
  | .binary hl hr _ => suit_append.mpr ⟨suit_append.mpr ⟨hl.suit hv hreads, hr.suit hv hreads⟩,
      suit_single (.of_not_named hv rfl)⟩
  | .unary (o := o) he _ =>
    suit_append.mpr ⟨he.suit hv hreads, suit_single (.of_not_named hv (by cases o <;> rfl))⟩
  | .call _ _ hname ha => suit_append.mpr ⟨ha.suit hv hreads, suit_single (.call hv hname)⟩

theorem Expr.CodedArgs.suit (hv : v ≠ .opening)
    (hreads : ∀ ty, Γ.lookup? x = some ty → v = .plain ∨ v = .renamed) {slots : List Slot}
    {args : List Expr} {tys : List Ty} {c : List Line} :
    Expr.CodedArgs p Γ slots args tys c → Suit p x v c
  | .nil => List.forall_mem_nil _
  | .cons he _ _ hes => suit_append.mpr ⟨suit_append.mpr ⟨he.suit hv hreads, suit_widening hv _ _⟩,
      hes.suit hv hreads⟩

end

theorem Expr.CodedInto.suit (hv : v ≠ .opening)
    (hreads : ∀ ty, Γ.lookup? x = some ty → v = .plain ∨ v = .renamed) {e : Expr} {slot : Ty}
    (h : e.CodedInto p Γ slot c) : Suit p x v c := by
  obtain ⟨he, -⟩ := h
  exact suit_append.mpr ⟨he.suit hv hreads, suit_widening hv _ _⟩

theorem Expr.Coded.suit_hidden {e : Expr} {ty : Ty} (h : e.Coded p Γ ty c) (hx : Γ.lookup? x = none) :
    Suit p x .hidden c :=
  h.suit View.noConfusion fun _ hty => absurd (hty.symm.trans hx) (Option.some_ne_none _)

/-! ### Lines one behind the other -/

variable {R : Nat → Bool} {r : Bool}

/-- `R` is `r` at the places between `a` and `b`. -/
def Throughout (R : Nat → Bool) (a b : Nat) (r : Bool) : Prop := ∀ q, a ≤ q → q < b → R q = r

theorem Throughout.sub {a' b' : Nat} (h : Throughout R a b r) (ha : a ≤ a') (hb : b' ≤ b) :
    Throughout R a' b' r :=
  fun q hq hq' => h q (Nat.le_trans ha hq) (Nat.lt_of_lt_of_le hq' hb)

/-- Views for the places between `a` and `b`, from one that is `v` at the start to one that is `v'` at the
end. The instructions at the places `R` are renamed. -/
structure Line.Viewed (p : Program) (ls : List Line) (x : String) (R : Nat → Bool) (a b : Nat)
    (v v' : View) (V : Nat → View) : Prop where
  le : a ≤ b
  start : (V a).Below v
  stop : V b = v'
  renames : ∀ q, a ≤ q → q < b → (V q).renames = R q
  fits : ∀ q i, a ≤ q → q < b → (code ls)[q]? = some i → (V q).Fits p x i
  flows : ∀ q q' i, a ≤ q → q < b → (code ls)[q]? = some i → (code ls).Flows q q' →
    a ≤ q' ∧ q' ≤ b ∧ (V q).Leads x i (V q')

namespace Line.Viewed

theorem pass (hl : StandsAt ls a c) (hc : Pass c) (hsuit : Suit p x v c)
    (hR : Throughout R a (a + c.length) v.renames) :
    Viewed p ls x R a (a + c.length) v v fun _ => v where
  le := Nat.le_add_right ..
  start := .refl v
  stop := rfl
  renames := fun q hq hq' => (hR q hq hq').symm
  fits := fun q i hq hq' hi => hsuit.fits hl hq hq' hi
  flows := by
    intro q q' i hq hq' hi hflow
    obtain rfl := hc.flows hl hq hq' hflow
    exact ⟨by omega, hq', .refl ..⟩

theorem line {l : Line} (hl : StandsAt ls a (l :: rest)) (hu : u.Below v) (hR : R a = u.renames)
    (hfits : u.Fits p x l.instruction)
    (hflows : ∀ q, (code ls).Flows a q → q = a + 1 ∧ u.Leads x l.instruction v') :
    Viewed p ls x R a (a + 1) v v' fun q => if q = a then u else v' where
  le := Nat.le_succ a
  start := by rwa [if_pos rfl]
  stop := if_neg (Nat.succ_ne_self a)
  renames := by
    intro q hq hq'
    obtain rfl : q = a := by omega
    rw [if_pos rfl, hR]
  fits := by
    intro q i hq hq' hi
    obtain rfl : q = a := by omega
    rw [if_pos rfl]
    obtain rfl := Option.some.inj (hi.symm.trans (code_at hl))
    exact hfits
  flows := by
    intro q q' i hq hq' hi hflow
    obtain rfl : q = a := by omega
    obtain ⟨rfl, hleads⟩ := hflows q' hflow
    obtain rfl := Option.some.inj (hi.symm.trans (code_at hl))
    rw [if_pos rfl, if_neg (Nat.succ_ne_self q)]
    exact ⟨by omega, by omega, hleads⟩

theorem append (h : Viewed p ls x R a b v u V) (h' : Viewed p ls x R b e u v' W) :
    Viewed p ls x R a e v v' fun q => if q < b then V q else W q where
  le := Nat.le_trans h.le h'.le
  start := by
    split
    · exact h.start
    next hab =>
      obtain rfl : a = b := Nat.le_antisymm h.le (Nat.le_of_not_lt hab)
      exact h'.start.trans (h.stop ▸ h.start)
  stop := by rw [if_neg (Nat.not_lt_of_le h'.le), h'.stop]
  renames := by
    intro q hq hq'
    split
    next hlt => exact h.renames q hq hlt
    next hge => exact h'.renames q (Nat.le_of_not_lt hge) hq'
  fits := by
    intro q i hq hq' hi
    split
    next hlt => exact h.fits q i hq hlt hi
    next hge => exact h'.fits q i (Nat.le_of_not_lt hge) hq' hi
  flows := by
    intro q q' i hq hq' hi hflow
    by_cases hlt : q < b
    · obtain ⟨hlo, hhi, hleads⟩ := h.flows q q' i hq hlt hi hflow
      refine ⟨hlo, Nat.le_trans hhi h'.le, ?_⟩
      rw [if_pos hlt]
      split
      · exact hleads
      next hge =>
        obtain rfl : q' = b := Nat.le_antisymm hhi (Nat.le_of_not_lt hge)
        exact hleads.below (h.stop ▸ h'.start)
    · obtain ⟨hlo, hhi, hleads⟩ := h'.flows q q' i (Nat.le_of_not_lt hlt) hq' hi hflow
      rw [if_neg hlt, if_neg (Nat.not_lt_of_le hlo)]
      exact ⟨Nat.le_trans h.le hlo, hhi, hleads⟩

/-- Less may be asked for at the end. -/
theorem weaken (h : Viewed p ls x R a b v u V) (hv' : v'.Below u) :
    Viewed p ls x R a b v v' fun q => if q = b then v' else V q where
  le := h.le
  start := by
    split
    next hab => exact hv'.trans (h.stop ▸ hab ▸ h.start)
    · exact h.start
  stop := if_pos rfl
  renames := by
    intro q hq hq'
    rw [if_neg (Nat.ne_of_lt hq')]
    exact h.renames q hq hq'
  fits := by
    intro q i hq hq' hi
    rw [if_neg (Nat.ne_of_lt hq')]
    exact h.fits q i hq hq' hi
  flows := by
    intro q q' i hq hq' hi hflow
    obtain ⟨hlo, hhi, hleads⟩ := h.flows q q' i hq hq' hi hflow
    refine ⟨hlo, hhi, ?_⟩
    rw [if_neg (Nat.ne_of_lt hq')]
    split
    next hb =>
      subst hb
      exact hleads.below (h.stop ▸ hv')
    · exact hleads

theorem store {name : String} {ty : Ty} (hl : StandsAt ls a (c ++ [Line.taking [ty] (.store name)]))
    (hd : (name, ty) ∈ p.declared) (hv : v ≠ .opening)
    (hR : Throughout R a (a + (c ++ [Line.taking [ty] (.store name)]).length) v.renames) (hc : Pass c)
    (hsuit : Suit p x v c) (hleads : v.Leads x (.store name) v') :
    ∃ V, Viewed p ls x R a (a + (c ++ [Line.taking [ty] (.store name)]).length) v v' V := by
  rw [List.length_append, List.length_singleton, ← Nat.add_assoc] at hR ⊢
  refine ⟨_, (pass hl.left hc hsuit (hR.sub (Nat.le_refl a) (Nat.le_succ _))).append
    (line hl.right (.refl v) (hR _ (Nat.le_add_right ..) (Nat.lt_succ_self _))
      (.store (fun h => absurd h hv) hd) fun q hflow => ?_)⟩
  exact ⟨(flows_iff_of_passes (code_at hl.right) rfl).mp hflow, hleads⟩

theorem ret {l : Line} (hl : StandsAt ls a (c ++ [l]))
    (hR : Throughout R a (a + (c ++ [l]).length) v.renames)
    (hc : Pass c) (hsuit : Suit p x v c) (hfits : v.Fits p x l.instruction)
    (hstop : ∀ q, ¬(code ls).Flows (a + c.length) q) :
    ∃ V, Viewed p ls x R a (a + (c ++ [l]).length) v v V := by
  rw [List.length_append, List.length_singleton, ← Nat.add_assoc] at hR ⊢
  exact ⟨_, (pass hl.left hc hsuit (hR.sub (Nat.le_refl a) (Nat.le_succ _))).append
    (line hl.right (.refl v) (hR _ (Nat.le_add_right ..) (Nat.lt_succ_self _)) hfits
      fun q hflow => absurd hflow (hstop q))⟩

end Line.Viewed

/-! ### Bodies -/

/-- The view in front of a body and behind it, and those inside. -/
def View.around (v : View) (lo hi : Nat) (W : Nat → View) (q : Nat) : View :=
  if q < lo then v else if q < hi then W q else v

theorem View.around_inside {lo hi q : Nat} (hlo : lo ≤ q) (hhi : q < hi) : v.around lo hi W q = W q := by
  rw [around, if_neg (Nat.not_lt_of_le hlo), if_pos hhi]

theorem View.around_outside {lo hi q : Nat} (hq : q < lo ∨ hi ≤ q) : v.around lo hi W q = v := by
  unfold around
  split
  · rfl
  · exact if_neg (by omega)

theorem View.around_start (h : Viewed p ls x R a b v u W) : (v.around a b W a).Below v := by
  by_cases hlt : a < b
  · rw [View.around_inside (Nat.le_refl a) hlt]
    exact h.start
  · rw [View.around_outside (.inr (Nat.le_of_not_lt hlt))]
    exact .refl v

theorem Line.fits_at {l : Line} {i : Instruction} (hv : v ≠ .opening) (hl : StandsAt ls a (l :: rest))
    (hnamed : l.instruction.named = false) (hi : (code ls)[a]? = some i) : v.Fits p x i := by
  obtain rfl := Option.some.inj (hi.symm.trans (code_at hl))
  exact .of_not_named hv hnamed

namespace Line.Viewed

/-- Lines around a body from which control goes on in front of it or behind it. -/
theorem frame {lo hi : Nat} (hbody : Viewed p ls x R lo hi v v W) (hlo : a ≤ lo) (hhi : hi ≤ b)
    (hR : Throughout R a lo v.renames) (hR' : Throughout R hi b v.renames)
    (hfits : ∀ q i, a ≤ q → q < b → q < lo ∨ hi ≤ q → (code ls)[q]? = some i → v.Fits p x i)
    (hflows : ∀ q q', a ≤ q → q < b → q < lo ∨ hi ≤ q → (code ls).Flows q q' →
      a ≤ q' ∧ q' ≤ b ∧ (q' ≤ lo ∨ hi ≤ q')) :
    Viewed p ls x R a b v v (v.around lo hi W) := by
  have hle := hbody.le
  refine ⟨by omega, ?_, View.around_outside (.inr hhi), ?_, ?_, ?_⟩
  · rcases Nat.lt_or_eq_of_le hlo with hlt | rfl
    · rw [View.around_outside (.inl hlt)]
      exact .refl v
    · exact View.around_start hbody
  · intro q hq hq'
    by_cases hout : q < lo ∨ hi ≤ q
    · rw [View.around_outside hout, hout.elim (hR q hq) fun hge => hR' q hge hq']
    · rw [View.around_inside (by omega) (by omega)]
      exact hbody.renames q (by omega) (by omega)
  · intro q i hq hq' hi'
    by_cases hout : q < lo ∨ hi ≤ q
    · rw [View.around_outside hout]
      exact hfits q i hq hq' hout hi'
    · rw [View.around_inside (by omega) (by omega)]
      exact hbody.fits q i (by omega) (by omega) hi'
  · intro q q' i hq hq' hi' hflow
    by_cases hout : q < lo ∨ hi ≤ q
    · obtain ⟨hlo', hhi', hto⟩ := hflows q q' hq hq' hout hflow
      refine ⟨hlo', hhi', ?_⟩
      rw [View.around_outside hout]
      by_cases hin : q' = lo
      · subst hin
        exact (View.around_start hbody).leads i
      · rw [View.around_outside (by omega)]
        exact .refl ..
    · -- Control in the body stays there or comes behind it.
      obtain ⟨hlo', hhi', hleads⟩ := hbody.flows q q' i (by omega) (by omega) hi' hflow
      refine ⟨by omega, by omega, ?_⟩
      rw [View.around_inside (by omega) (by omega)]
      by_cases hlt : q' < hi
      · rwa [View.around_inside hlo' hlt]
      · obtain rfl : q' = hi := by omega
        rw [View.around_outside (.inr (Nat.le_refl _))]
        exact hbody.stop ▸ hleads

theorem cond (hp : p.Coded ls) {test : Expr} {name : String} (hv : v ≠ .opening)
    (htest : test.Coded p Γ .bool c) (hsuit : Suit p x v c)
    (hl : StandsAt ls a (c ++ [.taking [.bool] (.jumpIfFalse name)] ++ d ++ [.plain (.label name)]))
    (hR : Throughout R a (a + c.length + 1) v.renames)
    (hR' : Throughout R (a + c.length + 1 + d.length) (a + c.length + 1 + d.length + 1) v.renames)
    (hbody : Viewed p ls x R (a + c.length + 1) (a + c.length + 1 + d.length) v v W) :
    ∃ V, Viewed p ls x R a (a + c.length + 1 + d.length + 1) v v V := by
  have hjump : StandsAt ls (a + c.length) _ := hl.left.left.right
  have hend := hl.right
  simp only [List.length_append, List.length_singleton, ← Nat.add_assoc] at hend
  refine ⟨_, hbody.frame (by omega) (by omega) hR hR' ?_ ?_⟩
  · intro q i hq hq' hout hi
    rcases Nat.lt_trichotomy q (a + c.length) with hlt | rfl | hgt
    · exact hsuit.fits hl.left.left.left hq hlt hi
    · exact fits_at hv hjump rfl hi
    · obtain rfl : q = a + c.length + 1 + d.length := by omega
      exact fits_at hv hend rfl hi
  · intro q q' hq hq' hout hflow
    rcases Nat.lt_trichotomy q (a + c.length) with hlt | rfl | hgt
    · obtain rfl := htest.pass.flows hl.left.left.left hq hlt hflow
      omega
    · rcases htest.flows_test hp hl.left.left hend hflow with rfl | ⟨rfl, -⟩ <;> omega
    · obtain rfl : q = a + c.length + 1 + d.length := by omega
      obtain rfl := (flows_iff_of_passes (code_at hend) rfl).mp hflow
      omega

theorem loop (hp : p.Coded ls) {test : Expr} {start stop : String} (hv : v ≠ .opening)
    (htest : test.Coded p Γ .bool c) (hsuit : Suit p x v c)
    (hl : StandsAt ls a ([.plain (.label start)] ++ c ++ [.taking [.bool] (.jumpIfFalse stop)] ++ d ++
      [.plain (.jump start), .plain (.label stop)]))
    (hR : Throughout R a (a + 1 + c.length + 1) v.renames)
    (hR' : Throughout R (a + 1 + c.length + 1 + d.length) (a + 1 + c.length + 1 + d.length + 1 + 1)
      v.renames)
    (hbody : Viewed p ls x R (a + 1 + c.length + 1) (a + 1 + c.length + 1 + d.length) v v W) :
    ∃ V, Viewed p ls x R a (a + 1 + c.length + 1 + d.length + 1 + 1) v v V := by
  have hstart := hl.left.left.left.left
  have hback := hl.right
  simp only [List.length_append, List.length_singleton, ← Nat.add_assoc] at hback
  have hend := hback.tail
  have htests : StandsAt ls (a + 1) (c ++ [.taking [.bool] (.jumpIfFalse stop)]) := by
    have htests := hl.left.left
    rw [List.append_assoc] at htests
    exact htests.right
  refine ⟨_, hbody.frame (by omega) (by omega) hR hR' ?_ ?_⟩
  · intro q i hq hq' hout hi
    rcases Nat.eq_or_lt_of_le hq with rfl | hgt
    · exact fits_at hv hstart rfl hi
    rcases Nat.lt_trichotomy q (a + 1 + c.length) with hlt | rfl | hgt
    · exact hsuit.fits htests.left hgt hlt hi
    · exact fits_at hv htests.right rfl hi
    · rcases (by omega : q = a + 1 + c.length + 1 + d.length ∨
        q = a + 1 + c.length + 1 + d.length + 1) with rfl | rfl
      · exact fits_at hv hback rfl hi
      · exact fits_at hv hend rfl hi
  · intro q q' hq hq' hout hflow
    rcases Nat.eq_or_lt_of_le hq with rfl | hgt
    · obtain rfl := (flows_iff_of_passes (code_at hstart) rfl).mp hflow
      omega
    rcases Nat.lt_trichotomy q (a + 1 + c.length) with hlt | rfl | hgt
    · obtain rfl := htest.pass.flows htests.left hgt hlt hflow
      omega
    · rcases htest.flows_test hp htests hend hflow with rfl | ⟨rfl, -⟩ <;> omega
    · rcases (by omega : q = a + 1 + c.length + 1 + d.length ∨
        q = a + 1 + c.length + 1 + d.length + 1) with rfl | rfl
      · unfold Flows at hflow
        rw [code_at hback] at hflow
        change (code ls).labelAddress? start = some q' at hflow
        rw [hp.labelAddress?_eq hstart] at hflow
        obtain rfl := Option.some.inj hflow
        omega
      · obtain rfl := (flows_iff_of_passes (code_at hend) rfl).mp hflow
        omega

end Line.Viewed

/-! ### Statements -/

variable {view : Context → View}

theorem Viewing.after (hview : Viewing x r view) (Γ : Context) (s : Stmt) :
    (view Γ).Below (view (s.after Γ)) := by
  cases s with
  | declare _ _ _ _ => exact hview.keeps ..
  | _ => exact .refl _

mutual

/-- The views of a statement, from the one in front of it to the one behind it. -/
theorem Stmt.Coded.viewed (hp : p.Coded ls) (hview : Viewing x r view) {Γ : Context} {n n' : Nat} {s : Stmt}
    {c : List Line} {a : Nat} (hR : Throughout R a (a + c.length) r) :
    s.Coded p Γ n n' c → StandsAt ls a c →
      ∃ V, Viewed p ls x R a (a + c.length) (view Γ) (view (s.after Γ)) V
  | .declare hi _ hd, hl =>
    Viewed.store hl hd (hview.closed Γ) (hview.renames Γ ▸ hR) hi.pass
      (hi.suit (hview.closed Γ) (hview.reads Γ)) (hview.declare Γ _ _)
  | .assign _ hd hv, hl =>
    Viewed.store hl hd (hview.closed Γ) (hview.renames Γ ▸ hR) hv.pass
      (hv.suit (hview.closed Γ) (hview.reads Γ)) (.refl ..)
  | .cond ht hb, hl => by
    have hbody := hl.left.right
    simp only [List.length_append, List.length_singleton, ← Nat.add_assoc] at hbody hR ⊢
    obtain ⟨W, hW⟩ := hb.viewed hp hview (hR.sub (by omega) (by omega)) hbody
    rw [hview.push] at hW
    rw [← hview.renames Γ] at hR
    exact Viewed.cond hp (hview.closed Γ) ht (ht.suit (hview.closed Γ) (hview.reads Γ)) hl
      (hR.sub (by omega) (by omega)) (hR.sub (by omega) (by omega)) hW
  | .loop ht hb, hl => by
    have hbody := hl.left.right
    simp only [List.length_append, List.length_cons, List.length_nil, Nat.zero_add,
      ← Nat.add_assoc] at hbody hR ⊢
    obtain ⟨W, hW⟩ := hb.viewed hp hview (hR.sub (by omega) (by omega)) hbody
    rw [hview.push] at hW
    rw [← hview.renames Γ] at hR
    exact Viewed.loop hp (hview.closed Γ) ht (ht.suit (hview.closed Γ) (hview.reads Γ)) hl
      (hR.sub (by omega) (by omega)) (hR.sub (by omega) (by omega)) hW
  | .retVoid _, hl => by
    refine Viewed.ret (c := []) hl (hview.renames Γ ▸ hR) (List.forall_mem_nil _) (List.forall_mem_nil _)
      (.of_not_named (hview.closed Γ) rfl) fun q hflow => ?_
    rw [Flows, List.length_nil, Nat.add_zero, code_at hl] at hflow
    exact hflow
  | .ret _ hv, hl => by
    refine Viewed.ret hl (hview.renames Γ ▸ hR) hv.pass (hv.suit (hview.closed Γ) (hview.reads Γ))
      (.of_not_named (hview.closed Γ) rfl) fun q hflow => ?_
    rw [Flows, code_at hl.right] at hflow
    exact hflow
  | .eval hv, hl => by
    have hsuit := hv.suit (hview.closed Γ) (hview.reads Γ)
    refine ⟨_, .pass hl (pass_append.mpr ⟨hv.pass, pass_single rfl⟩) (suit_append.mpr ⟨hsuit, ?_⟩)
      (hview.renames Γ ▸ hR)⟩
    exact suit_single (.of_not_named (hview.closed Γ) rfl)
  | .block hb, hl => by
    have hbody := hb.viewed hp hview hR hl
    rwa [hview.push] at hbody

/-- Behind statements nothing is asked for that is not asked for in front of them. -/
theorem Stmt.CodedAll.viewed (hp : p.Coded ls) (hview : Viewing x r view) {Γ : Context} {n n' : Nat}
    {ss : List Stmt} {c : List Line} {a : Nat} (hR : Throughout R a (a + c.length) r) :
    Stmt.CodedAll p Γ n ss n' c → StandsAt ls a c →
      ∃ V, Viewed p ls x R a (a + c.length) (view Γ) (view Γ) V
  | .nil, hl => ⟨_, .pass hl (List.forall_mem_nil _) (List.forall_mem_nil _) (hview.renames Γ ▸ hR)⟩
  | .cons (s := s) hs hss, hl => by
    rw [List.length_append, ← Nat.add_assoc] at hR ⊢
    obtain ⟨V, hV⟩ := hs.viewed hp hview (hR.sub (Nat.le_refl a) (Nat.le_add_right ..)) hl.left
    obtain ⟨W, hW⟩ := hss.viewed hp hview (hR.sub (Nat.le_add_right ..) (Nat.le_refl _)) hl.right
    exact ⟨_, (hV.append hW).weaken (hview.after Γ s)⟩

end

/-! ### The scope of the variable that is renamed -/

theorem Context.view_eq_hidden (h : Γ.lookup? x = none) : Γ.view x = .hidden := by
  rw [view, h]
  rfl

/-- What is not visible at a spot is not so on the way to it. -/
theorem Spot.lookup?_eq_none : ∀ {w : Spot} {Γ : Context}, (w.context Γ).lookup? x = none →
    Γ.lookup? x = none
  | here, _, h => h
  | next s w, _, h => by
    have hafter := lookup?_eq_none (w := w) h
    cases s with
    | declare _ _ _ _ =>
      change (Context.withVariable _ _ _).lookup? x = none at hafter
      rw [Context.lookup?_withVariable] at hafter
      split at hafter
      · cases hafter
      · exact hafter
    | _ => exact hafter
  | cond _ _ _ _, Γ, h | loop _ _ _ _, Γ, h | block _ _ _, Γ, h => lookup?_eq_none (Γ := Γ.push) h

theorem Stmt.CodedAll.viewed_hidden (hp : p.Coded ls) (hx : Γ.lookup? x = none) {n n' : Nat}
    {ss : List Stmt} (h : Stmt.CodedAll p Γ n ss n' c) (hl : StandsAt ls a c)
    (hR : Throughout R a (a + c.length) false) :
    ∃ V, Viewed p ls x R a (a + c.length) .hidden .hidden V := by
  have hviewed := h.viewed hp (Context.viewing x) hR hl
  rwa [Context.view_eq_hidden hx] at hviewed

/-- From the declaration of the variable on, its scope goes up to the end of its body. -/
theorem Line.Viewed.scope (hp : p.Coded ls) {init : Expr} {ty : Ty} {n n' : Nat} {ss : List Stmt}
    (hinit : init.CodedInto p Γ ty c) (hx : Γ.lookup? x = none) (hd : (x, ty) ∈ p.declared)
    (hss : Stmt.CodedAll p (Γ.withVariable x ty) n ss n' d)
    (hl : StandsAt ls a (c ++ [.taking [ty] (.store x)] ++ d)) (hR : Throughout R a (a + c.length) false)
    (hR' : Throughout R (a + c.length) (a + c.length + 1 + d.length) true) :
    ∃ V, Viewed p ls x R a (a + c.length + 1 + d.length) .hidden .hidden V := by
  obtain ⟨U, hU⟩ : ∃ U, Viewed p ls x R (a + c.length) (a + c.length + 1) .hidden .renamed U := by
    refine ⟨_, .line (u := .opening) hl.left.right (.inr (.inl rfl)) (hR' _ (Nat.le_refl _) (by omega))
      (.store (fun _ => rfl) hd) fun q hflow => ?_⟩
    exact ⟨(flows_iff_of_passes (code_at hl.left.right) rfl).mp hflow, rfl⟩
  have hrest := hl.right
  rw [List.length_append, List.length_singleton, ← Nat.add_assoc] at hrest
  obtain ⟨V, hV⟩ := hss.viewed hp (View.viewing_renamed x) (hR'.sub (by omega) (Nat.le_refl _)) hrest
  have hsuit : Suit p x .hidden c :=
    hinit.suit View.noConfusion fun _ hty => absurd (hty.symm.trans hx) (Option.some_ne_none _)
  exact ⟨_, (((pass hl.left.left hinit.pass hsuit hR).append hU).append hV).weaken (View.hidden_below _)⟩

theorem Spot.Coded.viewed (hp : p.Coded ls) {w : Spot} {n n₁ n₂ n' : Nat} {before after : List Line}
    (h : w.Coded p Γ n n₁ n₂ n' before after) (hx : (w.context Γ).lookup? x = none)
    (hl : StandsAt ls a (before ++ d ++ after)) (hR : Throughout R a (a + before.length) false)
    (hR' : Throughout R (a + before.length + d.length) (a + before.length + d.length + after.length) false)
    (hd : ∃ V, Viewed p ls x R (a + before.length) (a + before.length + d.length) .hidden .hidden V) :
    ∃ V, Viewed p ls x R a (a + before.length + d.length + after.length) .hidden .hidden V := by
  -- The induction is on the way to the spot, where the name is nowhere visible.
  induction h generalizing a with
  | here => exact hd
  | @next Γ n k n₁ n₂ n' s w c before after hs hw ih =>
    have hΓ := Spot.lookup?_eq_none (w := .next s w) hx
    simp only [List.append_assoc, List.length_append, ← Nat.add_assoc] at hl hR hR' hd ⊢
    obtain ⟨V, hV⟩ := hs.viewed hp (Context.viewing x) (hR.sub (Nat.le_refl a) (by omega)) hl.left
    rw [Context.view_eq_hidden hΓ, Context.view_eq_hidden (Spot.lookup?_eq_none (w := w) hx)] at hV
    have hlw := hl.right
    rw [← List.append_assoc] at hlw
    obtain ⟨W, hW⟩ := ih hx hlw (hR.sub (by omega) (Nat.le_refl _)) hR' hd
    exact ⟨_, hV.append hW⟩
  | @cond Γ n k n₁ n₂ n' loc test w rest c before after d' ht hw hrest ih =>
    have hΓ := Spot.lookup?_eq_none (w := .cond loc test w rest) hx
    replace hl : StandsAt ls a (c ++ [.taking [.bool] (.jumpIfFalse (labelName n))] ++
        (before ++ d ++ after) ++ [.plain (.label (labelName n))] ++ d') := by
      simpa only [List.append_assoc] using hl
    have hbody := hl.left.left.right
    have hend := hl.right
    simp only [List.length_append, List.length_singleton, ← Nat.add_assoc] at hbody hend hR hR' hd ⊢
    obtain ⟨W, hW⟩ := ih hx hbody (hR.sub (by omega) (Nat.le_refl _))
      (hR'.sub (Nat.le_refl _) (by omega)) hd
    obtain ⟨V, hV⟩ := Viewed.cond (v := .hidden) (R := R) (W := W) hp View.noConfusion ht
      (ht.suit_hidden hΓ) hl.left (hR.sub (by omega) (by omega))
      (hR'.sub (by simp; omega) (by simp; omega))
      (by simpa only [List.length_append, ← Nat.add_assoc] using hW)
    obtain ⟨U, hU⟩ := hrest.viewed_hidden hp hΓ hend (hR'.sub (by omega) (by omega))
    simp only [List.length_append, ← Nat.add_assoc] at hV
    exact ⟨_, hV.append hU⟩
  | @loop Γ n k n₁ n₂ n' loc test w rest c before after d' ht hw hrest ih =>
    have hΓ := Spot.lookup?_eq_none (w := .loop loc test w rest) hx
    replace hl : StandsAt ls a ([.plain (.label (labelName n))] ++ c ++
        [.taking [.bool] (.jumpIfFalse (labelName (n + 1)))] ++ (before ++ d ++ after) ++
        [.plain (.jump (labelName n)), .plain (.label (labelName (n + 1)))] ++ d') := by
      simpa only [List.append_assoc, List.cons_append, List.nil_append] using hl
    have hbody := hl.left.left.right
    have hend := hl.right
    simp only [List.length_append, List.length_cons, List.length_nil, Nat.zero_add,
      ← Nat.add_assoc] at hbody hend hR hR' hd ⊢
    obtain ⟨W, hW⟩ := ih hx hbody (hR.sub (by omega) (Nat.le_refl _))
      (hR'.sub (Nat.le_refl _) (by omega)) hd
    obtain ⟨V, hV⟩ := Viewed.loop (v := .hidden) (R := R) (W := W) hp View.noConfusion ht
      (ht.suit_hidden hΓ) hl.left (hR.sub (by omega) (by omega))
      (hR'.sub (by simp; omega) (by simp; omega))
      (by simpa only [List.length_append, ← Nat.add_assoc] using hW)
    obtain ⟨U, hU⟩ := hrest.viewed_hidden hp hΓ hend (hR'.sub (by omega) (by omega))
    simp only [List.length_append, ← Nat.add_assoc] at hV
    exact ⟨_, hV.append hU⟩
  | @block Γ n k n₁ n₂ n' loc w rest before after d' hw hrest ih =>
    have hΓ := Spot.lookup?_eq_none (w := .block loc w rest) hx
    rw [← List.append_assoc] at hl
    have hend := hl.right
    simp only [List.length_append, ← Nat.add_assoc] at hend hR' ⊢
    obtain ⟨W, hW⟩ := ih hx hl.left hR (hR'.sub (Nat.le_refl _) (by omega)) hd
    obtain ⟨U, hU⟩ := hrest.viewed_hidden hp hΓ hend (hR'.sub (by omega) (by omega))
    exact ⟨_, hW.append hU⟩

theorem Function.Coded.viewed (hp : p.Coded ls) {f : Function} {w : Spot} {n n₁ n₂ n' : Nat}
    {before after : List Line} (hf : f.Coded p Γ n n' (before ++ d ++ after))
    (hw : w.Coded p (Γ.inside f) n n₁ n₂ n' before after)
    (hx : (w.context (Γ.inside f)).lookup? x = none)
    (hl : StandsAt ls a (f.lines (before ++ d ++ after)))
    (hR : Throughout R a (a + 1 + f.params.length + before.length) false)
    (hR' : Throughout R (a + 1 + f.params.length + before.length + d.length)
      (a + 1 + f.params.length + before.length + d.length + after.length + 1) false)
    (hd : ∃ V, Viewed p ls x R (a + 1 + f.params.length + before.length)
      (a + 1 + f.params.length + before.length + d.length) .hidden .hidden V) :
    ∃ V, Viewed p ls x R a (a + 1 + f.params.length + before.length + d.length + after.length + 1)
      .hidden .hidden V := by
  have hbody := hl.left.right
  have hfin := hl.right
  simp only [List.length_append, List.length_singleton, List.length_map, List.length_reverse,
    ← Nat.add_assoc] at hbody hfin
  have hparams : Suit p x .hidden (f.params.reverse.map fun y => .taking [y.ty] (.store y.name)) :=
    List.forall_mem_map.mpr fun y hy => .store View.noConfusion (hf.params y (List.mem_reverse.mp hy))
  have hU := Viewed.pass (v := .hidden) (R := R) hl.left.left
    (pass_append.mpr ⟨pass_single rfl, f.pass_params⟩)
    (suit_append.mpr ⟨suit_single (.of_not_named View.noConfusion rfl), hparams⟩)
    (hR.sub (Nat.le_refl a) (by simp; omega))
  simp only [List.length_append, List.length_singleton, List.length_map, List.length_reverse,
    ← Nat.add_assoc] at hU
  obtain ⟨V, hV⟩ := hw.viewed hp hx hbody (hR.sub (by omega) (Nat.le_refl _))
    (hR'.sub (Nat.le_refl _) (Nat.le_succ _)) hd
  refine ⟨_, (hU.append hV).append (.line hfin (.refl _) (hR' _ (by omega) (Nat.lt_succ_self _))
    (.of_not_named View.noConfusion rfl) fun q hflow => ?_)⟩
  rw [Flows, code_at hfin] at hflow
  exact hflow.elim

theorem Line.Viewed.below_entry (h : Viewed p ls x R a b .hidden v' V) {name : String} {arity : Nat}
    (hfunc : (code ls)[a]? = some (.func name arity)) (hab : a < b) : (V (a + 1)).Below .hidden := by
  have hfits := h.fits a _ (Nat.le_refl a) hab hfunc
  have hleads := (h.flows a (a + 1) _ (Nat.le_refl a) hab hfunc
    ((flows_iff_of_passes hfunc rfl).mpr rfl)).2.2
  have hstart : V a = .hidden := by
    rcases h.start with hV | hV | hV
    · exact hV
    · cases hfits.opens hV
    · exact hV
  rw [hstart] at hleads
  cases hV : V (a + 1) with
  | hidden => exact .inl rfl
  | opening => exact .inr (.inl rfl)
  | plain =>
    rw [hV] at hleads
    rcases hleads with he | ⟨-, he⟩ <;> cases he
  | renamed =>
    rw [hV] at hleads
    cases hleads

end Labyrinth
