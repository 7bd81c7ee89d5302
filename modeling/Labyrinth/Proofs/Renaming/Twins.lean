import Labyrinth.Proofs.Renaming.Views
import Labyrinth.Proofs.Machine.Shift
import Labyrinth.Proofs.Returns
import Labyrinth.Proofs.Safety

/-!
# Runs with another name for a variable

Two codes are twins if they differ by the name of a variable where views ask for that (`Code.Twins`). Their
runs go step by step together, with stores that agree on what can still be read (`View.Links`), as long as
only built-in functions are called.
-/

namespace Labyrinth

open Machine

/-- What the views of the places say about two codes, the second with the new name. -/
structure Code.Twins (p : Program) (ρ : Renaming) (code code' : Code) (V : Nat → View) : Prop where
  get : ∀ q, code'[q]? = code[q]?.map fun i => if (V q).renames then i.rename ρ else i
  fits : ∀ q i, code[q]? = some i → (V q).Fits p ρ.old i
  flows : ∀ q q' i, code[q]? = some i → code.Flows q q' → (V q).Leads ρ.old i (V q')
  start : ∀ name q, code.entry? name = some q → (V q).Below .hidden

/-- The stores of two runs agree on what can still be read at a place with the view. -/
structure View.Links (ρ : Renaming) (v : View) (σ σ' : Store) : Prop where
  others : ∀ name, name ≠ ρ.old → name ≠ ρ.new → σ'.get? name = σ.get? name
  plain : v = .plain → σ'.get? ρ.old = σ.get? ρ.old
  renamed : v = .renamed → σ'.get? ρ.new = σ.get? ρ.old

/-- The name that the second code has for a variable at a place with the view. -/
def View.name (ρ : Renaming) (v : View) (x : String) : String := if v.renames then ρ.apply x else x

variable {p : Program} {ρ : Renaming} {code code' : Code} {ls : List Line} {V : Nat → View} {v w : View}
  {σ σ' : Store} {i : Instruction} {x : String} {m : Machine} {s t : State} {ip : Nat} {op : Op}
  {maze : Maze} {settings : Settings}

/-! ### Stores -/

namespace View

theorem Fits.ne_new (hρ : ρ.Fresh p) (h : x ∈ p.declared.map Prod.fst) : x ≠ ρ.new := by
  rintro rfl
  exact hρ h

theorem Below.links (h : v.Below .hidden) (σ : Store) : v.Links ρ σ σ where
  others := fun _ _ _ => rfl
  plain := fun _ => rfl
  renamed := fun he => by subst he; rcases h with h | h | h <;> cases h

/-- A variable that is read has the same value in both runs. -/
theorem Links.get? (h : v.Links ρ σ σ') (hρ : ρ.Fresh p) (hfits : v.Fits p ρ.old (.load x)) :
    σ'.get? (v.name ρ x) = σ.get? x := by
  obtain ⟨hdeclared, hview⟩ := hfits.reads x rfl
  have hnew := Fits.ne_new hρ hdeclared
  by_cases hx : x = ρ.old
  · subst hx
    rcases hview rfl with rfl | rfl
    · exact h.plain rfl
    · rw [name, renames, if_pos rfl, Renaming.apply_old]
      exact h.renamed rfl
  · have hname : v.name ρ x = x := by
      rw [name, Renaming.apply_of_ne hx, ite_self]
    rw [hname]
    exact h.others x hx hnew

theorem Links.set (h : v.Links ρ σ σ') (hρ : ρ.Fresh p) (hfits : v.Fits p ρ.old (.store x))
    (hleads : v.Leads ρ.old (.store x) w) (a : Value) :
    w.Links ρ (σ.set x a) (σ'.set (v.name ρ x) a) := by
  have hnew := Fits.ne_new hρ (hfits.writes x rfl)
  constructor
  case others =>
    intro name hold hnew'
    rw [Store.get?_set, Store.get?_set]
    by_cases hx : x = ρ.old
    · subst hx
      have hne : name ≠ v.name ρ ρ.old := by
        rw [View.name, Renaming.apply_old]
        split <;> assumption
      rw [if_neg hne, if_neg hold, h.others name hold hnew']
    · rw [View.name, Renaming.apply_of_ne hx, ite_self, h.others name hold hnew']
  case plain =>
    rintro rfl
    have hname : v.name ρ x = x := by
      rcases hleads with rfl | ⟨rfl, -⟩ <;> rfl
    rw [hname, Store.get?_set, Store.get?_set]
    by_cases hx : ρ.old = x
    · rw [if_pos hx, if_pos hx]
    · rcases hleads with rfl | ⟨-, hstore⟩
      · rw [if_neg hx, if_neg hx, h.plain rfl]
      · cases hstore
        exact absurd rfl hx
  case renamed =>
    rintro rfl
    rw [View.name, if_pos (show v.renames = true from hleads), Store.get?_set, Store.get?_set]
    by_cases hx : x = ρ.old
    · subst hx
      rw [Renaming.apply_old, if_pos rfl, if_pos rfl]
    · have hv : v = .renamed := by
        cases v with
        | opening => exact absurd (Instruction.store.inj (hfits.opens rfl)) hx
        | renamed => rfl
        | hidden | plain => cases hleads
      rw [Renaming.apply_of_ne hx, if_neg hnew.symm, if_neg (Ne.symm hx), h.renamed hv]

theorem Links.follow (h : v.Links ρ σ σ') (hfits : v.Fits p ρ.old i) (hleads : v.Leads ρ.old i w)
    (hi : ∀ name, i ≠ .store name) : w.Links ρ σ σ' where
  others := h.others
  plain := by
    rintro rfl
    rcases hleads with rfl | ⟨-, hstore⟩
    · exact h.plain rfl
    · exact absurd hstore (hi _)
  renamed := by
    rintro rfl
    cases v with
    | opening => exact absurd (hfits.opens rfl) (hi _)
    | renamed => exact h.renamed rfl
    | hidden | plain => cases hleads

end View

/-! ### Steps with other variables -/

def State.inStore (s : State) (σ : Store) : State := { s with store := σ }

def Next.inStore (σ : Store) : Next → Next
  | .state s => .state (s.inStore σ)
  | .halt v s => .halt v (s.inStore σ)

namespace Machine

variable {ops : Array Op}

theorem shift_eq_inStore (s : State) (σ : Store) : s.shift 0 (fun _ => σ) = s.inStore σ := by
  have hframes : s.frames.map (· + 0) = s.frames := Stack.ext (List.map_id'' Nat.add_zero _)
  rw [State.shift, hframes]
  rfl

theorem shifted_eq_inStore (r : Except Fault Next) (σ : Store) :
    shifted 0 (fun _ => σ) r = r.map (·.inStore σ) := by
  cases r with
  | error f => exact congrArg Except.error f.shift_zero
  | ok next =>
    cases next with
    | state s => exact congrArg (Except.ok <| Next.state ·) (shift_eq_inStore s σ)
    | halt v s => exact congrArg (Except.ok <| Next.halt v ·) (shift_eq_inStore s σ)

/-- The variables do not matter to other instructions. -/
theorem step_inStore (ip : Nat) (s : State) (σ : Store) (hop : op.closed) :
    step { m with ops } ip (s.inStore σ) op = (m.step ip s op).map (·.inStore σ) := by
  rw [← shift_eq_inStore, ← shifted_eq_inStore]
  exact step_shift rfl (.inl hop) (.refl op) ip s

theorem take_load {a : Value} (hget : s.store.get? x = some a) :
    m.take s (.load x) = m.take s (.push a) := by
  show step m s.ip (behind s) (.load x) = _
  simp only [step, behind, hget]
  rfl

theorem take_store {a : Value} {stack : Stack Value} (hpop : s.stack.pop? = some (a, stack)) :
    m.take s (.store x) = .ok (.state { behind s with stack, store := s.store.set x a }) := by
  show step m s.ip (behind s) (.store x) = _
  simp only [step, State.pop, behind, hpop]
  rfl

theorem take_store_of_none (hpop : s.stack.pop? = none) :
    m.take s (.store x) = .error (.stackUnderflow s.ip) := by
  show step m s.ip (behind s) (.store x) = _
  simp only [step, State.pop, behind, hpop]
  rfl

theorem store_of_take (hop : op.closed) (h : m.take s op = .ok (.state t)) : t.store = s.store := by
  have hself : m.step s.ip (behind s) op = (m.step s.ip (behind s) op).map (·.inStore s.store) :=
    step_inStore s.ip (behind s) s.store hop
  rw [← take_eq, h] at hself
  exact congrArg (fun t => t.store) (Next.state.inj (Except.ok.inj hself))

end Machine

/-! ### Linked twins -/

/-- The instruction that the second code has at a place with the view. -/
def View.relink (ρ : Renaming) (v : View) : Op → Op
  | .load x => .load (v.name ρ x)
  | .store x => .store (v.name ρ x)
  | op => op

theorem View.relink_of_closed (h : op.closed) : v.relink ρ op = op := by
  cases op with
  | load _ | store _ => cases h
  | _ => rfl

theorem Op.closed_ofInstruction (hload : ∀ x, i ≠ .load x) (hstore : ∀ x, i ≠ .store x) :
    (Op.ofInstruction code i).closed := by
  cases i with
  | load x => exact absurd rfl (hload x)
  | store x => exact absurd rfl (hstore x)
  | _ => rfl

namespace Code.Twins

variable (h : Code.Twins p ρ code code' V)

include h

/-- Renaming keeps what says nothing of variables. -/
theorem map_eq {β : Type} {g : Instruction → β} (hg : ∀ i, g (i.rename ρ) = g i) :
    code'.map g = code.map g := by
  refine List.ext_getElem? fun q => ?_
  rw [List.getElem?_map, List.getElem?_map, h.get q]
  cases code[q]? with
  | none => rfl
  | some i =>
    show some (g (if (V q).renames then i.rename ρ else i)) = some (g i)
    split
    · rw [hg]
    · rfl

theorem labelAddress?_eq (name : String) : code'.labelAddress? name = code.labelAddress? name := by
  have hmap := h.map_eq (g := Instruction.label?) fun i => by cases i <;> rfl
  have hfind (c : Code) : c.labelAddress? name = (c.map Instruction.label?).findIdx? (· = some name) := by
    rw [Code.labelAddress?_eq, List.findIdx?_map]
    rfl
  rw [hfind, hmap, ← hfind]

theorem entry?_eq (name : String) : code'.entry? name = code.entry? name := by
  have hmap := h.map_eq (g := Instruction.head?) fun i => by cases i <;> rfl
  have hfind (c : Code) :
      c.entry? name = ((c.map Instruction.head?).findIdx? (· = some name)).map (· + 1) := by
    rw [Code.entry?_eq, List.findIdx?_map]
    rfl
  rw [hfind, hmap, ← hfind]

theorem target_eq (name : String) : code'.target name = code.target name := by
  rw [target, target, h.entry?_eq]

theorem ofInstruction_eq (i : Instruction) : Op.ofInstruction code' i = Op.ofInstruction code i := by
  cases i with
  | jump name | jumpIfFalse name => simp only [Op.ofInstruction, h.labelAddress?_eq]
  | call name argc => simp only [Op.ofInstruction, h.target_eq]
  | _ => rfl

theorem link_eq (q : Nat) :
    code'.link[q]? = code.link[q]?.map ((V q).relink ρ) := by
  simp only [link, List.getElem?_toArray, List.getElem?_map, h.get q, Option.map_map]
  congr 1
  funext i
  simp only [Function.comp, h.ofInstruction_eq]
  unfold View.relink View.name
  cases i <;> cases (V q).renames <;> rfl

end Code.Twins

/-! ### Runs -/

/-- Results of an instruction that differ by the variables, which are as `P` says if the run goes on. -/
inductive Machine.Alike (P : State → Store → Prop) : Except Fault Next → Except Fault Next → Prop
  | state {t : State} {σ : Store} : P t σ → Alike P (.ok (.state t)) (.ok (.state (t.inStore σ)))
  | halt {v : Option Value} {t : State} {σ : Store} :
      Alike P (.ok (.halt v t)) (.ok (.halt v (t.inStore σ)))
  | error {f : Fault} : Alike P (.error f) (.error f)

theorem Machine.Alike.map {P : State → Store → Prop} {r : Except Fault Next}
    (h : ∀ t, r = .ok (.state t) → P t σ) : Alike P r (r.map (·.inStore σ)) := by
  cases r with
  | error f => exact .error
  | ok next =>
    cases next with
    | halt v t => exact .halt
    | state t => exact .state (h t rfl)

/-- What is left of a result without the variables. -/
def Machine.bare (r : Except Fault (Option Value × State)) : Except Fault (Option Value × State) :=
  r.map fun a => (a.1, a.2.inStore .empty)

def Outcome.bare (o : Outcome) : Outcome := { o with store := .empty }

/-- A state without open calls, beside one that has the variables `σ`. -/
structure State.Beside (ρ : Renaming) (V : Nat → View) (s : State) (σ : Store) : Prop where
  frames : s.frames = .empty
  links : (V s.ip).Links ρ s.store σ

namespace Code.Twins

variable (h : Code.Twins p ρ (Line.code ls) code' V) (hp : p.Coded ls) (hsolid : p.Solid)
  (hcallees : ∀ name ∈ p.callees, (Builtin.find? name).isSome) (hρ : ρ.Fresh p)

section

include h hp hcallees

/-- Where only built-in functions are called, no call is opened. -/
theorem frames_of_step (hops : m.ops = (Line.code ls).link) (hframes : s.frames = .empty)
    (hst : m.Step s t) : t.frames = s.frames := by
  rcases hst.frames_cases with hkeep | hpush | hpop
  · exact hkeep
  · obtain ⟨name, argc, hcall, htarget⟩ := hst.of_open hops hpush
    obtain ⟨g, hg, rfl, -⟩ := hp.exists_segment_of_entry (Code.entry?_of_target htarget)
    obtain ⟨n, n', body, hf, -, -, -⟩ := hp.segments_stand g hg
    have hbuiltin := hcallees _ ((h.fits _ _ hcall).calls _ _ rfl)
    rw [hf.unnamed] at hbuiltin
    cases hbuiltin
  · rw [hframes] at hpop
    cases congrArg Stack.items hpop

include hsolid hρ

/-- An instruction does the same in both runs. -/
theorem alike (hs : s.Beside ρ V σ) (hreach : (Line.code ls).Reaches maze settings m s)
    (ho : m.ops[s.ip]? = some op) : ∃ op', code'.link[s.ip]? = some op' ∧
      Alike (·.Beside ρ V) (m.take s op) (take { m with ops := code'.link } (s.inStore σ) op') := by
  obtain ⟨s₀, n, hload, hsteps⟩ := hreach
  obtain ⟨hops, hsound⟩ := Program.Coded.sound_of_load hload
  refine ⟨_, by rw [h.link_eq, ← hops, ho]; rfl, ?_⟩
  obtain ⟨i, hi, rfl⟩ := Code.getElem?_link (hops ▸ ho)
  have hfits := h.fits _ i hi
  have hgoes {t : State} (hst : m.Step s t) : t.frames = .empty ∧ (V s.ip).Leads ρ.old i (V t.ip) := by
    have hkeep := h.frames_of_step hp hcallees hops hs.frames hst
    exact ⟨hkeep.trans hs.frames, h.flows _ _ i hi ((hsound.steps hops hsteps).flows hops hst hkeep)⟩
  -- An instruction that does what one without variables does.
  have hclosed (op₀ : Op) (hop : op₀.closed) (hstore : ∀ x, i ≠ .store x)
      (htake : m.take s (Op.ofInstruction (Line.code ls) i) = m.take s op₀)
      (htake' : take { m with ops := code'.link } (s.inStore σ)
          ((V s.ip).relink ρ (Op.ofInstruction (Line.code ls) i)) =
        take { m with ops := code'.link } (s.inStore σ) op₀) :
      Alike (·.Beside ρ V) (m.take s (Op.ofInstruction (Line.code ls) i))
        (take { m with ops := code'.link } (s.inStore σ)
          ((V s.ip).relink ρ (Op.ofInstruction (Line.code ls) i))) := by
    rw [htake', show take { m with ops := code'.link } (s.inStore σ) op₀ =
      (m.take s op₀).map (·.inStore σ) from step_inStore s.ip (behind s) σ hop, htake]
    refine .map fun t ht => ?_
    obtain ⟨hframes, hleads⟩ := hgoes (t := t) ⟨_, ho, by rw [htake, ht]⟩
    exact ⟨hframes, by rw [store_of_take hop ht]; exact hs.links.follow hfits hleads hstore⟩
  by_cases hload' : ∃ x, i = .load x
  · obtain ⟨x, rfl⟩ := hload'
    have hget := hs.links.get? hρ hfits
    cases hvalue : s.store.get? x with
    | none =>
      -- A variable in scope has a value.
      have hfails : m.Fails s (.undefinedVariable x) := ⟨_, ho, by
        show step m s.ip (behind s) (.load x) = _
        simp only [step, behind, hvalue]⟩
      rcases hp.allows_of_fails hsolid ⟨s₀, n, hload, hsteps⟩ hfails with hallows | ⟨hf, -⟩
      · exact absurd trivial hallows
      · cases hf
    | some a =>
      exact hclosed (.push a) rfl (fun _ => Instruction.noConfusion) (take_load hvalue)
        (take_load (s := s.inStore σ) (hget.trans hvalue))
  by_cases hstore : ∃ x, i = .store x
  · obtain ⟨x, rfl⟩ := hstore
    show Alike _ (m.take s (.store x))
      (take { m with ops := code'.link } (s.inStore σ) (.store ((V s.ip).name ρ x)))
    cases hpop : s.stack.pop? with
    | none =>
      rw [take_store_of_none hpop, take_store_of_none (s := s.inStore σ) hpop]
      exact .error
    | some top =>
      rw [take_store hpop, take_store (s := s.inStore σ) hpop]
      obtain ⟨hframes, hleads⟩ := hgoes ⟨_, ho, take_store hpop⟩
      exact .state ⟨hframes, hs.links.set hρ hfits hleads top.1⟩
  · have hop : (Op.ofInstruction (Line.code ls) i).closed :=
      Op.closed_ofInstruction (not_exists.mp hload') (not_exists.mp hstore)
    exact hclosed _ hop (not_exists.mp hstore) rfl (by rw [View.relink_of_closed hop])

theorem bare_runFrom (k : Nat) (hs : s.Beside ρ V σ)
    (hreach : (Line.code ls).Reaches maze settings m s) :
    bare (runFrom { m with ops := code'.link } k (s.inStore σ)) = bare (m.runFrom k s) := by
  have hoff {q : Nat} (ho : m.ops[q]? = none) : code'.link[q]? = none := by
    obtain ⟨s₀, n, hload, -⟩ := hreach
    rw [h.link_eq, ← (Program.Coded.sound_of_load hload).1, ho]
    rfl
  -- The induction is on the steps that may still be taken; each changes both stores.
  induction k generalizing s σ with
  | zero =>
    cases ho : m.ops[s.ip]? with
    | none =>
      rw [runFrom_of_none ho, runFrom_of_none (s := s.inStore σ) (hoff ho)]
      rfl
    | some op =>
      obtain ⟨op', ho', -⟩ := h.alike hp hsolid hcallees hρ hs hreach ho
      rw [runFrom_zero ho, runFrom_zero (s := s.inStore σ) ho']
  | succ k ih =>
    cases ho : m.ops[s.ip]? with
    | none =>
      rw [runFrom_of_none ho, runFrom_of_none (s := s.inStore σ) (hoff ho)]
      rfl
    | some op =>
      obtain ⟨op', ho', halike⟩ := h.alike hp hsolid hcallees hρ hs hreach ho
      rw [runFrom_succ ho, runFrom_succ (s := s.inStore σ) ho']
      generalize ht : m.take s op = r at halike
      generalize take { m with ops := code'.link } (s.inStore σ) op' = r' at halike
      cases halike with
      | error => rfl
      | halt => rfl
      | @state t τ htwin =>
        obtain ⟨s₀, n, hload, hsteps⟩ := hreach
        exact ih htwin ⟨s₀, n + 1, hload, hsteps.tail ⟨op, ho, ht⟩⟩

/-- The two codes do the same in every maze. -/
theorem run_bare (maze : Maze) (settings : Settings) :
    (code'.run maze settings).map Outcome.bare = ((Line.code ls).run maze settings).map Outcome.bare := by
  have hload : load code' maze settings =
      (load (Line.code ls) maze settings).map fun r => ({ r.1 with ops := code'.link }, r.2) := by
    simp only [load, h.entry?_eq]
    split
    · rfl
    · cases startAgent maze settings <;> rfl
  have hbare (r : Except Fault (Option Value × State)) :
      (r.map fun a => a.2.outcome a.1).map Outcome.bare = (bare r).map fun a => a.2.outcome a.1 := by
    cases r <;> rfl
  cases hstart : load (Line.code ls) maze settings with
  | error f =>
    rw [hstart] at hload
    rw [Code.run_eq_error_of_load hstart, Code.run_eq_error_of_load hload]
  | ok r =>
    obtain ⟨m, s₀⟩ := r
    rw [hstart] at hload
    rw [Code.run_eq_of_load hstart, Code.run_eq_of_load hload, hbare, hbare]
    obtain ⟨agent, -, hentry, -, -, hframes, -⟩ := load_eq_ok hstart
    have hbeside : s₀.Beside ρ V s₀.store := ⟨hframes, (h.start _ _ hentry).links s₀.store⟩
    exact congrArg _ (h.bare_runFrom hp hsolid hcallees hρ m.maxSteps hbeside ⟨s₀, 0, hstart, .refl s₀⟩)

end

end Code.Twins

end Labyrinth
