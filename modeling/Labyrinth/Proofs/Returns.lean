import Labyrinth.Proofs.Code.Flow
import Labyrinth.Proofs.Machine.Activations
import Labyrinth.Proofs.Discipline.Expressions
import Labyrinth.Proofs.Accepted

/-!
# Activations return as their functions say

An activation follows the flow of control of its function, since a state behind the literal `true` has
it on the stack (`State.Sound`). So it stays in the code of its function, it does not come to the end of
a function that has a value, and it does not get through statements that always return.
-/

namespace Labyrinth

open Machine

/-- What the places of a state say about what was carried out there. -/
structure State.Sound (code : Code) (s : State) : Prop where
  /-- An open call goes on behind a call. -/
  calls : ∀ b ∈ s.frames.items, ∃ k name argc, b = k + 1 ∧ code[k]? = some (.call name argc)
  /-- A jump behind the literal `true` finds it. -/
  literal : ∀ k label, s.ip = k + 1 → code[k]? = some (.pushInt 1) →
    code[k + 1]? = some (.jumpIfFalse label) → s.stack.top? = some (.int 1)

variable {p : Program} {ls : List Line} {code : Code} {m : Machine} {s t u a s₀ : State} {g : Segment}
  {V : Nat → Prop} {maze : Maze} {settings : Settings}

theorem Code.entry?_of_target {name : String} {entry : Nat} (h : code.target name = .address entry) :
    code.entry? name = some entry := by
  unfold target at h
  split at h
  · cases h
  · split at h
    next he => cases h; exact he
    · cases h

/-! ### Steps and the flow of control -/

section Steps

variable (hops : m.ops = code.link)

include hops

theorem Machine.Step.instruction (h : m.Step s t) :
    ∃ i, code[s.ip]? = some i ∧ Moves s t (Op.ofInstruction code i) := by
  obtain ⟨op, ho, hm⟩ := h.moves
  rw [hops] at ho
  obtain ⟨i, hi, rfl⟩ := Code.getElem?_link ho
  exact ⟨i, hi, hm⟩

/-- A step that opens an activation is a call, and the activation starts at the entry of a function. -/
theorem Machine.Step.of_open (h : m.Step s t) (hpush : t.frames = s.frames.push (s.ip + 1)) :
    ∃ name argc, code[s.ip]? = some (.call name argc) ∧ code.target name = .address t.ip := by
  obtain ⟨i, hi, hm⟩ := h.instruction hops
  have hne (hkeep : t.frames = s.frames) : False := Stack.push_ne _ _ (hpush.symm.trans hkeep)
  have hno (hpop : s.frames = t.frames.push t.ip) : False := by
    have hlen := congrArg (fun F => F.items.length) hpush
    simp only [hpop, Stack.items_push, List.length_cons] at hlen
    omega
  cases i with
  | call name argc =>
    refine ⟨name, argc, hi, ?_⟩
    rw [Op.ofInstruction] at hm
    cases htarget : code.target name with
    | address entry => rw [htarget] at hm; rw [hm.1]
    | action action => rw [htarget] at hm; exact (hne hm.2).elim
    | unresolved => rw [htarget] at hm; exact (hne hm.2).elim
  | pushInt n => exact (hne hm.2.1).elim
  | pushFloat x => exact (hne hm.2.1).elim
  | jumpIfFalse label => exact (hne hm.1).elim
  | ret | retVoid | fin => exact (hno hm).elim
  | _ => exact (hne hm.2).elim

theorem State.Sound.step (h : s.Sound code) (hst : m.Step s t) : t.Sound code := by
  obtain ⟨i, hi, hm⟩ := hst.instruction hops
  constructor
  case calls =>
    rcases hst.frames_cases with hkeep | hpush | hpop
    · rw [hkeep]; exact h.calls
    · obtain ⟨name, argc, hcall, -⟩ := hst.of_open hops hpush
      rw [hpush, Stack.items_push]
      refine List.forall_mem_cons.mpr ⟨⟨s.ip, name, argc, rfl, hcall⟩, h.calls⟩
    · intro b hb
      refine h.calls b ?_
      rw [hpop, Stack.items_push]
      exact List.mem_cons_of_mem _ hb
  case literal =>
    intro k label hip hk hl
    -- A place behind the literal is reached from the literal only.
    have hfrom (hnext : t.ip = s.ip + 1) : i = .pushInt 1 := by
      obtain rfl : s.ip = k := by omega
      exact Option.some.inj (hi.symm.trans hk)
    have hlabel {name : String} (h : code[t.ip]? = some (.label name)) : False := by
      rw [hip, hl] at h
      cases h
    cases i with
    | pushInt n =>
      obtain rfl : n = 1 := by simpa using hfrom hm.1
      exact hm.2.2
    | jump name => exact (hlabel (Code.getElem?_of_labelAddress? hm.1)).elim
    | jumpIfFalse name =>
      obtain ⟨-, v, -, hm⟩ := hm
      split at hm
      · cases hfrom hm
      · exact (hlabel (Code.getElem?_of_labelAddress? hm)).elim
    | call name argc =>
      rw [Op.ofInstruction] at hm
      cases htarget : code.target name with
      | address entry =>
        rw [htarget] at hm
        obtain ⟨j, arity, he, hfunc⟩ := Code.getElem?_of_entry? (Code.entry?_of_target htarget)
        obtain rfl : j = k := by have := hm.1; omega
        rw [hfunc] at hk
        cases hk
      | action action => rw [htarget] at hm; cases hfrom hm.1
      | unresolved => rw [htarget] at hm; cases hfrom hm.1
    | ret | retVoid | fin =>
      obtain ⟨j, name, argc, hj, hcall⟩ := h.calls t.ip (by
        rw [show s.frames = t.frames.push t.ip from hm]
        exact List.mem_cons_self ..)
      obtain rfl : j = k := by omega
      rw [hcall] at hk
      cases hk
    | pushFloat x => cases hfrom hm.1
    | _ => cases hfrom hm.1

theorem State.Sound.steps {n : Nat} (h : s.Sound code) (hst : m.Steps n s t) : t.Sound code :=
  hst.keeps (fun _ _ hs hst => hs.step hops hst) h

/-- A step in an activation follows the flow of control. -/
theorem State.Sound.flows (h : s.Sound code) (hst : m.Step s t) (hkeep : t.frames = s.frames) :
    code.Flows s.ip t.ip := by
  obtain ⟨i, hi, hm⟩ := hst.instruction hops
  have hno (hpop : s.frames = t.frames.push t.ip) : False :=
    Stack.push_ne _ _ (hpop.symm.trans hkeep.symm)
  cases i with
  | jump name => rw [Code.Flows, hi]; exact hm.1
  | jumpIfFalse name =>
    rw [Code.Flows, hi]
    obtain ⟨-, v, htop, hm⟩ := hm
    split at hm
    · exact .inl hm
    next hv =>
      refine .inr ⟨hm, fun k hk hlit => hv ?_⟩
      have hint := h.literal k name hk hlit (by rw [← hk]; exact hi)
      rw [Option.some.inj (htop.symm.trans hint)]
      rfl
  | call name argc =>
    refine (Code.flows_iff_of_passes hi rfl).mpr ?_
    rw [Op.ofInstruction] at hm
    cases htarget : code.target name with
    | address entry =>
      rw [htarget] at hm
      exact absurd (hm.2.symm.trans hkeep) (Stack.push_ne _ _)
    | action action => rw [htarget] at hm; exact hm.1
    | unresolved => rw [htarget] at hm; exact hm.1
  | ret | retVoid | fin => exact (hno hm).elim
  | _ => exact (Code.flows_iff_of_passes hi rfl).mpr hm.1

/-- Control that stays in some places does so along an activation. -/
theorem Machine.Goes.confined (hV : ∀ q q', V q → code.Flows q q' → V q') (hgo : m.Goes s t)
    (h : s.Sound code) (hs : V s.ip) : V t.ip := by
  induction hgo with
  | refl => exact hs
  | step hgo hst hkeep ih =>
    obtain ⟨n, hsteps⟩ := hgo.steps
    exact hV _ _ (ih h hs) ((h.steps hops hsteps).flows hops hst hkeep)
  | @call s t a b u hgo hin hpush _ _ _ hip ih _ =>
    obtain ⟨name, argc, hcall, -⟩ := hin.of_open hops hpush
    exact hV _ _ (ih h hs) ((Code.flows_iff_of_passes hcall rfl).mpr hip)

end Steps

/-! ### Activations of functions -/

theorem Program.exists_mem_segmentsFrom {Γ : Context} {f : Function} :
    ∀ {ds : Program} {Δ : Context} (a : Nat), (Γ, f) ∈ ds.functionsFrom Δ →
      ∃ g ∈ ds.segmentsFrom Δ a, g.context = Γ ∧ g.function = f
  | .stmt _ :: ds, Δ, a, h => by
    have hds : (Γ, f) ∈ functionsFrom Δ ds := h
    have hsegment : ∃ g ∈ segmentsFrom Δ a ds, g.context = Γ ∧ g.function = f :=
      exists_mem_segmentsFrom a hds
    exact hsegment
  | .function f' :: ds, Δ, a, h => by
    rcases List.mem_cons.mp h with h | h
    · cases h
      exact ⟨_, List.mem_cons_self .., rfl, rfl⟩
    · obtain ⟨g, hg, hg'⟩ := exists_mem_segmentsFrom (a + (f'.marks Δ).length) h
      exact ⟨g, List.mem_cons_of_mem _ hg, hg'⟩

namespace Program.Coded

variable (hp : p.Coded ls)

include hp

theorem entry?_eq (hg : g ∈ p.segments) :
    Code.entry? (Line.code ls) g.function.name = some (g.start + 1) := by
  obtain ⟨n, n', body, hf, hl, -, -⟩ := hp.segments_stand g hg
  have hhead : (Line.code ls)[g.start]? = some (.func g.function.name g.function.params.length) :=
    (hl.map Line.instruction).getElem?
  exact hp.entry?_of_getElem? hhead

theorem exists_segment_of_entry {name : String} {b : Nat}
    (h : Code.entry? (Line.code ls) name = some b) :
    ∃ g ∈ p.segments, g.function.name = name ∧ b = g.start + 1 := by
  obtain ⟨⟨Γ, f⟩, hf, rfl⟩ : ∃ x ∈ p.functions, x.2.name = name := by
    by_contra hno
    have hnone : Code.entry? (Line.code ls) name = none :=
      hp.entry?_eq_none.mpr fun x hx he => hno ⟨x, hx, he⟩
    rw [hnone] at h
    cases h
  obtain ⟨g, hg, -, rfl⟩ := Program.exists_mem_segmentsFrom 0 hf
  exact ⟨g, hg, rfl, Option.some.inj (h.symm.trans (hp.entry?_eq hg))⟩

/-- A function of the program is linked to its entry. -/
theorem target_eq (hg : g ∈ p.segments) :
    (Line.code ls).target g.function.name = .address (g.start + 1) := by
  obtain ⟨n, n', body, hf, -, -, -⟩ := hp.segments_stand g hg
  exact Code.target_function hf.unnamed (hp.entry?_eq hg)

/-- An activation stays in the code of its function, in front of the end if there is a value. -/
theorem inside (hops : m.ops = (Line.code ls).link) (hg : g ∈ p.segments)
    (ha : a.Sound (Line.code ls)) (hip : a.ip = g.start + 1) (hgo : m.Goes a s) :
    g.start < s.ip ∧ s.ip < g.stop ∧ (g.function.ret ≠ .void → s.ip + 1 < g.stop) := by
  obtain ⟨V, hV, hvalued⟩ := (hp.segments_stand g hg).confines hp
  obtain ⟨hstart, hclosed⟩ := hV.closed
  have hs := hgo.confined hops hclosed ha (hip ▸ hstart)
  exact ⟨(hV.inside _ hs).1, (hV.inside _ hs).2, fun hv => hvalued hv _ hs⟩

end Program.Coded

/-- A state that is about to carry out a return of the function, with the value of a return statement
of its own. -/
def Segment.ReturnsAt (g : Segment) (code : Code) (s : State) : Prop :=
  code[s.ip]? = some .ret ∧
    ∃ x ∈ g.sites, ∃ k e, x.part = .stmt (.ret k (some e)) ∧ x.stop = s.ip + 1

/-- In an activation of a function with a value, a return is one of its own. -/
theorem Program.Coded.returnsAt (hp : p.Coded ls) (hops : m.ops = (Line.code ls).link)
    (hg : g ∈ p.segments) (ha : a.Sound (Line.code ls)) (hip : a.ip = g.start + 1) (hgo : m.Goes a s)
    (hv : g.function.ret ≠ .void) (hop : m.ops[s.ip]? = some .ret ∨ m.ops[s.ip]? = some .retVoid) :
    g.ReturnsAt (Line.code ls) s := by
  obtain ⟨hlo, -, hhi⟩ := hp.inside hops hg ha hip hgo
  obtain ⟨i, hi, hop⟩ : ∃ i, (Line.code ls)[s.ip]? = some i ∧
      (Op.ofInstruction (Line.code ls) i = .ret ∨ Op.ofInstruction (Line.code ls) i = .retVoid) := by
    rw [hops] at hop
    rcases hop with ho | ho <;> obtain ⟨i, hi, he⟩ := Code.getElem?_link ho
    · exact ⟨i, hi, .inl he.symm⟩
    · exact ⟨i, hi, .inr he.symm⟩
  obtain ⟨l, hl, rfl⟩ := Option.map_eq_some_iff.mp (Line.getElem?_code ls s.ip ▸ hi)
  have hcloses := (hp.segments_stand g hg).closes hlo (hhi hv) hl
  have hret : l.instruction = .ret := by
    generalize hinstr : l.instruction = i at hop
    cases i with
    | ret => rfl
    | retVoid => exact absurd (Option.some.inj (hcloses.plain hinstr)) hv
    | fin => exact absurd hinstr hcloses.inner
    | _ => simp [Op.ofInstruction] at hop
  obtain ⟨x, hx, k, e, hpart, hstop, -⟩ := hcloses.valued hret
  exact ⟨hret ▸ hi, x, hx, k, e, hpart, hstop⟩

/-! ### Whole runs -/

/-- How the activations of a program's functions return, at a state of a run. -/
structure Program.Completes (p : Program) (code : Code) (m : Machine) (s : State) : Prop where
  /-- In a function that has a value, neither the end nor a return without a value is carried out. -/
  valued : ∀ g ∈ p.segments, g.function.ret ≠ .void → g.start ≤ s.ip → s.ip < g.stop →
    code[s.ip]? ≠ some .fin ∧ code[s.ip]? ≠ some .retVoid
  /-- An activation of such a function that a call opens is closed by one of its return statements. -/
  call : ∀ g ∈ p.segments, g.function.ret ≠ .void →
    ∀ argc, code[s.ip]? = some (.call g.function.name argc) → ∀ a u t, m.Step s a →
      m.Within a.frames a u → m.Step u t → t.frames = s.frames → g.ReturnsAt code u
  /-- So is the one that the run starts with, if it is closed. -/
  halt : ∀ g ∈ p.segments, g.function.ret ≠ .void → g.function.name = "main" →
    ∀ v t, m.Ends s (.ok (v, t)) → g.ReturnsAt code s
  /-- An activation that comes to statements that always return does not come behind them. -/
  body : ∀ x ∈ p.sites, ∀ ss, x.part = .body ss → Stmt.anyReturns ss → s.ip = x.start →
    ∀ t, m.Within s.frames s t → t.frames = s.frames → t.ip ≠ x.stop

theorem Program.Coded.sound_of_load (hload : load (Line.code ls) maze settings = .ok (m, s₀)) :
    m.ops = (Line.code ls).link ∧ s₀.Sound (Line.code ls) := by
  obtain ⟨agent, -, hentry, rfl, -, hframes, -⟩ := load_eq_ok hload
  refine ⟨rfl, by simp [hframes], fun k label hip hk _ => ?_⟩
  obtain ⟨j, arity, hj, hfunc⟩ := Code.getElem?_of_entry? hentry
  obtain rfl : j = k := by omega
  rw [hfunc] at hk
  cases hk

namespace Program.Coded

variable (hp : p.Coded ls) (hload : load (Line.code ls) maze settings = .ok (m, s₀))

include hp hload

/-- The innermost activation of a state is one of a function of the program. -/
theorem exists_activation (ho : m.Open s₀ a s) :
    a.Sound (Line.code ls) ∧ ∃ g ∈ p.segments, a.ip = g.start + 1 := by
  obtain ⟨hops, hs₀⟩ := sound_of_load hload
  cases ho with
  | start =>
    obtain ⟨agent, -, hentry, -⟩ := load_eq_ok hload
    obtain ⟨g, hg, -, hip⟩ := hp.exists_segment_of_entry hentry
    exact ⟨hs₀, g, hg, hip⟩
  | call ho hin hpush _ =>
    obtain ⟨n, hsteps⟩ := ho.steps
    obtain ⟨name, argc, -, htarget⟩ := hin.of_open hops hpush
    obtain ⟨g, hg, -, hip⟩ := hp.exists_segment_of_entry (Code.entry?_of_target htarget)
    exact ⟨(hs₀.steps hops hsteps).step hops hin, g, hg, hip⟩

/-- The activation that a run starts with is one of `main`. -/
theorem ends_in_main {n : Nat} (hsteps : m.Steps n s₀ s) {v : Option Value}
    (hend : m.Ends s (.ok (v, t))) :
    m.Goes s₀ s ∧ s.frames = .empty ∧
      (m.ops[s.ip]? = some .ret ∧ v = s.stack.top? ∨ m.ops[s.ip]? = some .retVoid ∧ v = none) := by
  obtain ⟨hops, hs₀⟩ := sound_of_load hload
  obtain ⟨-, -, -, -, -, hempty, -⟩ := load_eq_ok hload
  obtain ⟨a, ho⟩ := hsteps.exists_open hempty
  rcases hend.cases_ok with hoff | ⟨hframes, hret⟩
  · obtain ⟨ha, g, hg, hip⟩ := hp.exists_activation hload ho
    have hhi := (hp.inside hops hg ha hip ho.goes).2.1
    have hle := (hp.segments_stand g hg).stop_le
    rw [hops, Code.link, List.getElem?_toArray, List.getElem?_map, Option.map_eq_none_iff,
      List.getElem?_eq_none_iff, Line.length_code] at hoff
    omega
  · exact ⟨ho.goes_of_frames (hframes.trans hempty.symm), hframes, hret⟩

theorem completes {n : Nat} (hsteps : m.Steps n s₀ s) : p.Completes (Line.code ls) m s := by
  obtain ⟨hops, hs₀⟩ := sound_of_load hload
  have hs := hs₀.steps hops hsteps
  obtain ⟨-, -, hmain, -, -, hempty, -⟩ := load_eq_ok hload
  refine ⟨?valued, ?call, ?halt, ?body⟩
  case valued =>
    intro g hg hv hlo hhi
    obtain ⟨a, ho⟩ := hsteps.exists_open hempty
    obtain ⟨ha, g', hg', hip⟩ := hp.exists_activation hload ho
    obtain ⟨hlo', hhi', hend⟩ := hp.inside hops hg' ha hip ho.goes
    obtain rfl := segment_unique hg hg' hlo hhi (Nat.le_of_lt hlo') hhi'
    rw [Line.getElem?_code]
    constructor <;> intro he <;> obtain ⟨l, hl, he⟩ := Option.map_eq_some_iff.mp he
    · exact ((hp.segments_stand g hg).closes hlo' (hend hv) hl).inner he
    · exact hv (Option.some.inj (((hp.segments_stand g hg).closes hlo' (hend hv) hl).plain he))
  case call =>
    intro g hg hv argc hcall a u t hin hwithin hout hframes
    obtain ⟨i, hi, hm⟩ := hin.instruction hops
    obtain rfl := Option.some.inj (hi.symm.trans hcall)
    rw [Op.ofInstruction, hp.target_eq hg] at hm
    have hpush : a.frames = t.frames.push (s.ip + 1) := by rw [hframes]; exact hm.2
    obtain ⟨hgo, -⟩ := hwithin.goes_of_close hout hpush
    have hpop : u.frames = t.frames.push (s.ip + 1) := by rw [hgo.frames_eq, hpush]
    exact hp.returnsAt hops hg (hs.step hops hin) hm.1 hgo hv (hout.ret_of_close hpop)
  case halt =>
    intro g hg hv hname v t hend
    obtain ⟨hgo, -, hret⟩ := hp.ends_in_main hload hsteps hend
    rw [← hname, hp.entry?_eq hg] at hmain
    exact hp.returnsAt hops hg hs₀ (Option.some.inj hmain).symm hgo hv (hret.imp And.left And.left)
  case body =>
    intro x hx ss hpart hreturns hip t hwithin hframes
    obtain ⟨c, hl, hstop, hcoded⟩ := hp.stands x hx
    rw [hpart] at hcoded
    obtain ⟨n, n', hcoded⟩ := hcoded
    obtain ⟨V, hV⟩ := hcoded.confines hp hl
    rw [hreturns] at hV
    obtain ⟨hstart, hclosed⟩ := hV.closed
    have hlt := (hV.inside _ ((hwithin.goes hframes).confined hops hclosed hs (hip ▸ hstart))).2
    omega

end Program.Coded

namespace Source

variable {source : String}

/-- Every activation of a function that has a value returns with one of its return statements, and none
gets through statements that always return. -/
theorem run_completes (hprog : checked source = .ok p) (hc : compile source = .ok code) (maze : Maze)
    (settings : Settings) :
    ∃ ls, p.Coded ls ∧ code = Line.code ls ∧ (∀ g ∈ p.segments, g.Stands p ls) ∧
      (∀ x ∈ p.sites, x.Stands p ls) ∧
      ∀ m s, code.Reaches maze settings m s → p.Completes code m s := by
  obtain ⟨ls, hls, rfl⟩ := exists_coded hprog hc
  refine ⟨ls, hls, rfl, hls.segments_stand, hls.stands, ?_⟩
  rintro m s ⟨s₀, n, hload, hsteps⟩
  exact hls.completes hload hsteps

theorem run_completes_sample : ∃ p code, checked sample = .ok p ∧ compile sample = .ok code ∧
    ∃ ls, p.Coded ls ∧ code = Line.code ls ∧ (∀ g ∈ p.segments, g.Stands p ls) ∧
      (∀ x ∈ p.sites, x.Stands p ls) ∧
      ∀ m s, code.Reaches .sample {} m s → p.Completes code m s := by
  obtain ⟨p, code, hprog, hc, -⟩ := exists_sample
  exact ⟨p, code, hprog, hc, run_completes hprog hc .sample {}⟩

end Source

end Labyrinth
