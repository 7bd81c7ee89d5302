import Labyrinth.Proofs.Code.Routines
import Labyrinth.Proofs.Code.Takes
import Labyrinth.Proofs.Code.Transfer
import Labyrinth.Proofs.Machine.Shift
import Labyrinth.Proofs.Returns

/-!
# Unused functions

Functions in front of a program or behind it do not matter to its runs. The code of the program stands in
the code of the whole, with other labels (`Code.EmbedsAt`), control does not leave it, and each of its
instructions is linked to the same places as before, moved by the length of what stands in front
(`Code.EmbedsAt.shifted_link`).
-/

namespace Labyrinth

open Machine

variable {p p' : Program} {ls ls' : List Line} {code code' : Code} {g : String → String} {k a : Nat}
  {i : Instruction} {name : String} {m : Machine} {s : State} {maze : Maze} {settings : Settings}

/-! ### Where the names of a program are -/

theorem Routine.mem_body_of_mem_code {r : Routine} (hi : i ∈ r.code)
    (hfunc : ∀ name arity, i ≠ .func name arity) (hstore : ∀ name, i ≠ .store name)
    (hfin : i ≠ .fin) : i ∈ r.body := by
  simp only [code, List.mem_append, List.mem_singleton, List.mem_map] at hi
  rcases hi with ((hi | ⟨x, -, hi⟩) | hi) | hi
  · exact absurd hi (hfunc _ _)
  · exact absurd hi.symm (hstore _)
  · exact hi
  · exact absurd hi hfin

namespace Program.Coded

/-- Every jump of a program has a place to go to. -/
theorem exists_labelAddress? (hp : p.Coded ls)
    (h : .jump name ∈ Line.code ls ∨ .jumpIfFalse name ∈ Line.code ls) :
    ∃ b, (Line.code ls).labelAddress? name = some b := by
  obtain ⟨fs, rs, -, -, hrs⟩ := hp.exists_wellFormed
  have hlabel : .label name ∈ Line.code ls := by
    obtain ⟨r, hr, hjump⟩ : ∃ r ∈ rs, .jump name ∈ r.body ∨ .jumpIfFalse name ∈ r.body := by
      rw [hrs.code_eq] at h
      rcases h with h | h
      · obtain ⟨r, hr, h⟩ := List.mem_flatMap.mp h
        exact ⟨r, hr, .inl (Routine.mem_body_of_mem_code h nofun nofun nofun)⟩
      · obtain ⟨r, hr, h⟩ := List.mem_flatMap.mp h
        exact ⟨r, hr, .inr (Routine.mem_body_of_mem_code h nofun nofun nofun)⟩
    rw [hrs.code_eq]
    refine List.mem_flatMap.mpr ⟨r, hr, ?_⟩
    have hbody := hrs.jumps r hr name hjump
    exact List.mem_append_left _ (List.mem_append_right _ hbody)
  obtain ⟨b, hb⟩ := List.mem_iff_getElem?.mp hlabel
  exact ⟨b, hp.labelAddress?_of_getElem? hb⟩

/-- What a call of a program is of. -/
theorem callee_of_getElem? (hp : p.Coded ls) {argc : Nat}
    (h : (Line.code ls)[a]? = some (.call name argc)) :
    (∃ b ∈ Builtin.table, b.name = name) ∨
      Builtin.find? name = none ∧ ∃ e, Code.entry? (Line.code ls) name = some e := by
  obtain ⟨l, -, hcall, -, hfits⟩ := hp.fits h
  obtain ⟨sig, tys, hcallee, -⟩ := hfits.call name argc hcall
  cases hcallee with
  | builtin hb => exact .inl ⟨_, hb, rfl⟩
  | function hf hn =>
    obtain ⟨b, -, -, -, -, -, hentry⟩ := hp.standsAt hf
    exact .inr ⟨hn, _, hentry⟩

/-- Control does not leave the code. -/
theorem getElem?_of_reaches (hp : p.Coded ls) (hs : (Line.code ls).Reaches maze settings m s) :
    ∃ i, (Line.code ls)[s.ip]? = some i := by
  obtain ⟨s₀, n, hload, hsteps⟩ := hs
  obtain ⟨hops, -⟩ := sound_of_load hload
  obtain ⟨-, -, -, -, -, hempty, -⟩ := load_eq_ok hload
  obtain ⟨b, ho⟩ := hsteps.exists_open hempty
  obtain ⟨hb, seg, hseg, hip⟩ := hp.exists_activation hload ho
  have hlt := (hp.inside hops hseg hb hip ho.goes).2.1
  have hle := (hp.segments_stand seg hseg).stop_le
  have hlength : s.ip < (Line.code ls).length := by
    rw [Line.length_code]
    omega
  exact ⟨_, List.getElem?_eq_getElem hlength⟩

end Program.Coded

/-! ### Code inside of other code -/

/-- In `code'`, `code` stands at `k`, with the labels that `g` gives. -/
def Code.EmbedsAt (g : String → String) (k : Nat) (code code' : Code) : Prop :=
  ∀ a i, code[a]? = some i → code'[a + k]? = some (i.relabel g)

theorem Code.embedsAt_append (g : String → String) (before code after : Code) :
    EmbedsAt g before.length code (before ++ code.map (Instruction.relabel g) ++ after) := by
  intro a i hi
  rw [List.append_assoc, List.getElem?_append_right (Nat.le_add_left _ _), Nat.add_sub_cancel]
  have ha : a < code.length := (List.getElem?_eq_some_iff.mp hi).1
  rw [List.getElem?_append_left (by rwa [List.length_map]), List.getElem?_map, hi]
  rfl

namespace Code.EmbedsAt

variable (h : (Line.code ls).EmbedsAt g k (Line.code ls')) (hp : p.Coded ls) (hp' : p'.Coded ls')

include h hp'

theorem labelAddress?_eq {b : Nat} (hb : (Line.code ls).labelAddress? name = some b) :
    (Line.code ls').labelAddress? (g name) = some (b + k) :=
  hp'.labelAddress?_of_getElem? (h b _ (getElem?_of_labelAddress? hb))

theorem entry?_eq {e : Nat} (he : Code.entry? (Line.code ls) name = some e) :
    Code.entry? (Line.code ls') name = some (e + k) := by
  obtain ⟨b, arity, rfl, hb⟩ := getElem?_of_entry? he
  rw [hp'.entry?_of_getElem? (h b _ hb), Nat.add_right_comm]

include hp

/-- An instruction is linked to the same places as before, which are moved like itself. -/
theorem shifted_link (hi : (Line.code ls)[a]? = some i) :
    (Op.ofInstruction (Line.code ls) i).Shifted k (Op.ofInstruction (Line.code ls') (i.relabel g)) := by
  cases i with
  | jump name =>
    obtain ⟨b, hb⟩ := hp.exists_labelAddress? (.inl (List.mem_of_getElem? hi))
    rw [Instruction.relabel, Op.ofInstruction, Op.ofInstruction, hb, h.labelAddress?_eq hp' hb]
    exact .jump fun hnone => absurd hnone (Option.some_ne_none b)
  | jumpIfFalse name =>
    obtain ⟨b, hb⟩ := hp.exists_labelAddress? (.inr (List.mem_of_getElem? hi))
    rw [Instruction.relabel, Op.ofInstruction, Op.ofInstruction, hb, h.labelAddress?_eq hp' hb]
    exact .jumpIfFalse fun hnone => absurd hnone (Option.some_ne_none b)
  | call name argc =>
    show (Op.call ((Line.code ls).target name) name).Shifted k
      (.call ((Line.code ls').target name) name)
    rcases hp.callee_of_getElem? hi with ⟨b, hb, rfl⟩ | ⟨hnone, e, he⟩
    · cases ha : b.action with
      | none =>
        rw [hp.target_unresolved hb ha, hp'.target_unresolved hb ha]
        exact .unresolved
      | some action =>
        rw [target_action _ hb ha, target_action _ hb ha]
        exact .act
    · rw [target_function hnone he, target_function hnone (h.entry?_eq hp' he)]
      exact .enter
  | pushInt _ | pushFloat _ => exact .push
  | load _ => exact .load
  | store _ => exact .store
  | binary _ => exact .binary
  | neg => exact .neg
  | not => exact .not
  | toFloat => exact .toFloat
  | label _ | func _ _ | nop => exact .skip
  | fin | retVoid => exact .retVoid
  | ret => exact .ret

theorem ops_of_reaches (hs : (Line.code ls).Reaches maze settings m s) :
    ∃ i, m.ops[s.ip]? = some (Op.ofInstruction (Line.code ls) i) ∧
      (Line.code ls').link[s.ip + k]? = some (Op.ofInstruction (Line.code ls') (i.relabel g)) ∧
      (Op.ofInstruction (Line.code ls) i).Shifted k
        (Op.ofInstruction (Line.code ls') (i.relabel g)) := by
  obtain ⟨i, hi⟩ := hp.getElem?_of_reaches hs
  obtain ⟨s₀, n, hload, -⟩ := hs
  obtain ⟨hops, -⟩ := Program.Coded.sound_of_load hload
  refine ⟨i, ?_, ?_, h.shifted_link hp hp' hi⟩
  · rw [hops, link, List.getElem?_toArray, List.getElem?_map, hi]
    rfl
  · rw [link, List.getElem?_toArray, List.getElem?_map, h _ _ hi]
    rfl

/-- A run inside of the other code is the run of the code alone, with its places moved. -/
theorem runFrom_shift (budget : Nat) (hs : (Line.code ls).Reaches maze settings m s) :
    runFrom { m with ops := (Line.code ls').link } budget (s.shift k id) =
      ((m.runFrom budget s).map fun r => (r.1, r.2.shift k id)).mapError (Fault.shift k) := by
  -- The induction is on the steps that may still be taken; control stays in the code.
  induction budget generalizing s with
  | zero =>
    obtain ⟨i, ho, ho', -⟩ := h.ops_of_reaches hp hp' hs
    rw [runFrom_zero ho, runFrom_zero (s := s.shift k id) ho']
    rfl
  | succ budget ih =>
    obtain ⟨i, ho, ho', hshifted⟩ := h.ops_of_reaches hp hp' hs
    have htake : take { m with ops := (Line.code ls').link } (s.shift k id) _ = _ :=
      take_shift (m := m) rfl (.inr rfl) hshifted s
    rw [runFrom_succ ho, runFrom_succ (s := s.shift k id) ho', htake]
    cases ht : m.take s (Op.ofInstruction (Line.code ls) i) with
    | error f => rfl
    | ok next =>
      cases next with
      | halt v t => rfl
      | state t =>
        obtain ⟨s₀, n, hload, hsteps⟩ := hs
        exact ih ⟨s₀, n + 1, hload, hsteps.tail ⟨_, ho, ht⟩⟩

/-- What a fault says of its place is all that differs. -/
theorem run_shift (hmain : ∃ e, Code.entry? (Line.code ls) "main" = some e) (maze : Maze)
    (settings : Settings) :
    (Line.code ls').run maze settings =
      ((Line.code ls).run maze settings).mapError (Fault.shift k) := by
  obtain ⟨e, he⟩ := hmain
  have he' := h.entry?_eq hp' he
  have hload : load (Line.code ls') maze settings =
      ((load (Line.code ls) maze settings).map fun r =>
        ({ r.1 with ops := (Line.code ls').link }, r.2.shift k id)).mapError (Fault.shift k) := by
    simp only [load, he, he']
    cases hstart : startAgent maze settings with
    | ok agent => rfl
    | error f =>
      rcases startAgent_eq_error hstart with ⟨pose, -, -, rfl⟩ | rfl | ⟨x, y, rfl⟩
      · rfl
      · rfl
      · rfl
  cases hstart : load (Line.code ls) maze settings with
  | error f =>
    rw [hstart] at hload
    rw [Code.run_eq_error_of_load hstart, Code.run_eq_error_of_load hload]
    rfl
  | ok r =>
    obtain ⟨m, s₀⟩ := r
    rw [hstart] at hload
    have hrun := h.runFrom_shift hp hp' m.maxSteps ⟨s₀, 0, hstart, .refl s₀⟩
    rw [Code.run_eq_of_load hstart, Code.run_eq_of_load hload, hrun]
    cases m.runFrom m.maxSteps s₀ <;> rfl

end Code.EmbedsAt

/-! ### Programs of two parts -/

theorem exists_relabeling (k : Nat) : ∃ g : String → String, ∀ n, g (labelName n) = labelName (n + k) :=
  ⟨Function.extend labelName (fun n => labelName (n + k)) id, fun n =>
    Function.Injective.extend_apply (fun _ _ => labelName_injective) _ _ n⟩

theorem Instruction.relabel_id (i : Instruction) : i.relabel id = i := by
  cases i <;> rfl

theorem Fault.mapError_shift_zero {α : Type} (r : Except Fault α) : r.mapError (Fault.shift 0) = r := by
  cases r with
  | ok a => rfl
  | error f => exact congrArg Except.error f.shift_zero

namespace Program

/-- The program of functions only. -/
abbrev ofFunctions (fs : List Function) : Program := fs.map .function

variable {fs gs : List Function}

theorem exists_coded_ofFunctions (h : (ofFunctions fs).check = .ok ()) :
    ∃ ls, (ofFunctions fs).Coded ls := by
  refine exists_coded_of_check (fun d hd => ?_) h
  obtain ⟨f, -, rfl⟩ := List.mem_map.mp hd
  rfl

/-- The lines of a program of two parts. -/
theorem exists_parts (h : (ofFunctions fs ++ ofFunctions gs).check = .ok ()) :
    ∃ m c d, (ofFunctions fs ++ ofFunctions gs).Coded (c ++ d) ∧
      CodedFrom (ofFunctions fs ++ ofFunctions gs) .initial 0 (ofFunctions fs) c ∧
      Context.initial.Extends (.behind .initial fs) ∧
      CodedFrom (ofFunctions fs ++ ofFunctions gs) (.behind .initial fs) m (ofFunctions gs) d := by
  have hall : (ofFunctions (fs ++ gs)).check = .ok () := by rwa [ofFunctions, List.map_append]
  obtain ⟨ls, hls⟩ := exists_coded_ofFunctions hall
  rw [ofFunctions, List.map_append] at hls
  obtain ⟨m, c, d, rfl, hc, hextends, hd⟩ := CodedFrom.split hls
  exact ⟨m, c, d, hls, hc, hextends, hd⟩

theorem Coded.exists_entry (hp : (ofFunctions fs).Coded ls) (h : ∃ f ∈ fs, f.name = name) :
    ∃ e, Code.entry? (Line.code ls) name = some e := by
  obtain ⟨f, hf, rfl⟩ := h
  have hmem : Decl.function f ∈ ofFunctions fs := List.mem_map_of_mem hf
  obtain ⟨Γ, hmem⟩ := exists_mem_functionsFrom .initial hmem
  obtain ⟨a, -, -, -, -, -, hentry⟩ := hp.standsAt hmem
  exact ⟨_, hentry⟩

/-- Functions behind a program do not change its code or its runs. -/
theorem Coded.run_behind (hp : (ofFunctions fs).Coded ls) (hmain : ∃ f ∈ fs, f.name = "main")
    (h : (ofFunctions fs ++ ofFunctions gs).check = .ok ()) :
    ∃ d, (ofFunctions fs ++ ofFunctions gs).code = .ok (Line.code ls ++ d) ∧
      ∀ maze settings, (Line.code ls ++ d).run maze settings = (Line.code ls).run maze settings := by
  obtain ⟨m, c, d, hall, hc, -, -⟩ := exists_parts h
  have hcode : Line.code c = Line.code ls := Except.ok.inj (hc.code.symm.trans hp.code_eq)
  have hwhole : Line.code (c ++ d) = Line.code ls ++ Line.code d := by rw [Line.code_append, hcode]
  have hembeds : (Line.code ls).EmbedsAt id 0 (Line.code (c ++ d)) := by
    have hself : (Line.code ls).map (Instruction.relabel id) = Line.code ls :=
      List.map_id'' Instruction.relabel_id _
    have happend := Code.embedsAt_append id [] (Line.code ls) (Line.code d)
    rwa [hself, List.nil_append, ← hwhole] at happend
  refine ⟨Line.code d, hwhole ▸ hall.code_eq, fun maze settings => ?_⟩
  rw [← hwhole, hembeds.run_shift hp hall (hp.exists_entry hmain), Fault.mapError_shift_zero]

/-- Functions in front of a program only move its code and the places in its faults. -/
theorem Coded.run_front (hp : (ofFunctions fs).Coded ls) (hmain : ∃ f ∈ fs, f.name = "main")
    (h : (ofFunctions gs ++ ofFunctions fs).check = .ok ()) :
    ∃ d e, (ofFunctions gs).code = .ok d ∧
      (ofFunctions gs ++ ofFunctions fs).code = .ok (d ++ e) ∧ e.length = (Line.code ls).length ∧
      ∀ maze settings, (d ++ e).run maze settings =
        ((Line.code ls).run maze settings).mapError (Fault.shift d.length) := by
  obtain ⟨k, c, d, hall, hc, hextends, hd⟩ := exists_parts h
  obtain ⟨g, hg⟩ := exists_relabeling k
  have hcode : Line.code d = (Line.code ls).map (Instruction.relabel g) := by
    have hamong := among_of_subset (List.subset_append_right (ofFunctions gs) (ofFunctions fs))
    rw [← Nat.zero_add k] at hd
    exact CodedFrom.relabel hamong hg hextends hp hd
  have hembeds : (Line.code ls).EmbedsAt g (Line.code c).length (Line.code (c ++ d)) := by
    have happend := Code.embedsAt_append g (Line.code c) (Line.code ls) []
    rwa [List.append_nil, ← hcode, ← Line.code_append] at happend
  refine ⟨Line.code c, Line.code d, hc.code, ?_, ?_, fun maze settings => ?_⟩
  · rw [← Line.code_append]
    exact hall.code_eq
  · rw [hcode, List.length_map]
  · rw [← Line.code_append]
    exact hembeds.run_shift hp hall (hp.exists_entry hmain) maze settings

/-- Functions that are not used do not matter. -/
theorem run_unused (hcheck : (ofFunctions fs).check = .ok ()) (hmain : ∃ f ∈ fs, f.name = "main") :
    ∃ c, (ofFunctions fs).code = .ok c ∧
      ∀ gs, ((ofFunctions fs ++ ofFunctions gs).check = .ok () →
        ∃ d, (ofFunctions fs ++ ofFunctions gs).code = .ok (c ++ d) ∧
          ∀ maze settings, (c ++ d).run maze settings = c.run maze settings) ∧
      ((ofFunctions gs ++ ofFunctions fs).check = .ok () →
        ∃ d e, (ofFunctions gs).code = .ok d ∧
          (ofFunctions gs ++ ofFunctions fs).code = .ok (d ++ e) ∧ e.length = c.length ∧
          ∀ maze settings, (d ++ e).run maze settings =
            (c.run maze settings).mapError (Fault.shift d.length)) := by
  obtain ⟨ls, hp⟩ := exists_coded_ofFunctions hcheck
  exact ⟨Line.code ls, hp.code_eq, fun gs => ⟨hp.run_behind hmain, hp.run_front hmain⟩⟩

/-- A function with a loop and a division by zero behind it. -/
def dividing (loc : Location) (name : String) : Function where
  loc
  ret := .int
  name
  params := []
  body := [.loop loc (.call loc "is_wall" []) [.eval (.call loc "turn_left" [])],
    .ret loc (some (.binary loc .div (.int loc 1) (.int loc 0)))]

/-- Whether a run ends in a division by zero at a place. -/
def dividesAt (ip : Nat) (code : Code) : Bool :=
  match code.run .sample {} with
  | .error (.divisionByZero ip') => ip' = ip
  | _ => false

theorem run_of_dividesAt {ip : Nat} (h : dividesAt ip code) :
    code.run .sample {} = .error (.divisionByZero ip) := by
  unfold dividesAt at h
  split at h
  next ip' hrun => rw [hrun, of_decide_eq_true h]
  · cases h

/-- Two functions, each of which has the labels of the other when it is alone. -/
theorem run_unused_dividing : ∃ c d d' e,
    (ofFunctions [dividing ⟨1, 1⟩ "main"]).code = .ok c ∧
    (ofFunctions [dividing ⟨1, 1⟩ "main"] ++ ofFunctions [dividing ⟨2, 1⟩ "other"]).code =
      .ok (c ++ d) ∧
    (ofFunctions [dividing ⟨2, 1⟩ "other"]).code = .ok d' ∧
    (ofFunctions [dividing ⟨2, 1⟩ "other"] ++ ofFunctions [dividing ⟨1, 1⟩ "main"]).code =
      .ok (d' ++ e) ∧
    (c ++ d).run .sample {} = .error (.divisionByZero 10) ∧
    (d' ++ e).run .sample {} = .error (.divisionByZero 23) := by
  have hcheck : (ofFunctions [dividing ⟨1, 1⟩ "main"]).check = .ok () := rfl
  obtain ⟨c, hc, h⟩ := run_unused hcheck ⟨_, List.mem_singleton_self _, rfl⟩
  obtain ⟨d, hd, hsame⟩ := (h [dividing ⟨2, 1⟩ "other"]).1 rfl
  obtain ⟨d', e, hd', he, -, hmoved⟩ := (h [dividing ⟨2, 1⟩ "other"]).2 rfl
  obtain ⟨c', hc', hdivides⟩ := Except.any_toOption (q := dividesAt 10)
    (x := (ofFunctions [dividing ⟨1, 1⟩ "main"]).code) (by decide +kernel)
  obtain rfl : c = c' := Except.ok.inj (hc.symm.trans hc')
  obtain ⟨d'', hd'', hlength⟩ := Except.any_toOption (q := fun d => d.length = 13)
    (x := (ofFunctions [dividing ⟨2, 1⟩ "other"]).code) (by decide +kernel)
  obtain rfl : d' = d'' := Except.ok.inj (hd'.symm.trans hd'')
  refine ⟨c, d, d', e, hc, hd, hd', he, ?_, ?_⟩
  · rw [hsame, run_of_dividesAt hdivides]
  · rw [hmoved, run_of_dividesAt hdivides, of_decide_eq_true hlength]
    rfl

end Program

end Labyrinth
