import Labyrinth.Proofs.Simulation.Statements

/-!
# Code of functions follows their evaluation

A function stores its arguments and comes to a return as its evaluation does. `Program.Coded.simulated` is
the induction on the fuel that closes the circle between calls and bodies.
-/

namespace Labyrinth

open Machine Program.Coded

variable {p : Program} {ls rest : List Line} {Γ : Context} {calls : Calls} {fuel a j : Nat} {w : World}
  {m : Machine} {s : State} {S : List Value} {F : Stack Nat} {f : Function}

theorem runs_receive (hm : m.ops = (Line.code ls).link) {xs : List Param} {vs : List Value}
    (hlen : vs.length = xs.length)
    (hl : StandsAt ls a (xs.map fun x => .taking [x.ty] (.store x.name))) (hs : s.At a (vs ++ S) F w) :
    Runs (.faults Fault.IsOverflow) m False (fun _ t => t.At (a + xs.length) S F (w.receive xs vs))
      xs.length j s := by
  induction xs generalizing vs a s w j with
  | nil =>
    obtain rfl := List.length_eq_zero_iff.mp hlen
    exact .done hs
  | cons x xs ih =>
    obtain ⟨v, vs, rfl⟩ := List.exists_cons_of_length_eq_add_one hlen
    refine .store (v := v) (S := vs ++ S) hs (op_of_link hm hl) trivial fun t ht => ?_
    refine (ih (Nat.succ.inj hlen) hl.tail ht).imp fun _ u hu => ?_
    simpa [World.receive, Nat.add_assoc, Nat.add_comm 1] using hu

theorem Function.apply_eq (args : List Value) :
    f.apply calls fuel Γ args w = (do
      match ← Stmt.runAll calls fuel (Γ.inside f) f.body with
      | .returned v => return v
      | .next => return none : Evaluation (Option Value)) (w.receive f.params.reverse args.reverse) :=
  rfl

/-- A function comes to a return with its value. -/
theorem Function.Coded.simulates (hp : p.Coded ls) (hsolid : p.Solid) (hvalued : calls.Valued p)
    (hcalls : calls.Simulated p ls fuel) {k k' : Nat} {body : List Line} (hf : f.Coded p Γ k k' body)
    (hl : StandsAt ls a (f.lines body)) {args : List Value} (hlen : args.length = f.params.length) :
    Simulates (Line.code ls) fuel (.at (a + 1) args.reverse w) (f.apply calls fuel Γ args w) fun v w' =>
      .returning (Line.code ls) (f.discards Γ = false) v w' := by
  have hstores := hl.left.left.right
  have hbody := hl.left.right
  have hfin := hl.right
  simp only [List.length_append, List.length_singleton, List.length_map, List.length_reverse,
    ← Nat.add_assoc] at hstores hbody hfin
  rw [Function.apply_eq]
  refine .before (fun m hm S F s hs j => runs_receive hm (by simpa using hlen) hstores hs) ?_
  rw [List.length_reverse]
  refine (hf.body.simulates hp hsolid hvalued hcalls hbody).bind fun fl w₁ _ => ?_
  cases fl with
  | returned v => exact .pure fun _ _ _ hs => hs
  | next =>
    -- At the end of a body stands an instruction that returns nothing.
    refine .pure fun S F s hs => ?_
    obtain ⟨left, hs, hleft⟩ := hs
    exact ⟨_, left, hs, hleft, .inr ⟨op_at hfin, rfl⟩⟩

/-- A call of a function that leaves nothing unused returns with its value on the stack. -/
theorem Simulates.back {r : Except Stop (Option Value × World)} {pre : Scene} {b : Nat} {q : Prop}
    (hq : q) (h : Simulates (Line.code ls) fuel pre r fun v w' S F t =>
      Scene.returning (Line.code ls) q v w' S (F.push b) t) :
    Simulates (Line.code ls) fuel pre r fun v w' => .at b v.toList w' := by
  refine h.after (n := 1) fun v w' _ m hm S F s hs j => ?_
  obtain ⟨a, left, hs, hleft, hop⟩ := hs
  rw [hleft hq, List.append_nil] at hs
  rw [← hm] at hop
  exact .back hs (hop.imp_right And.left) trivial fun t ht => .done ht

/-- A call of a built-in does what the built-in does. -/
theorem Simulates.builtin (hp : p.Coded ls) {b : Builtin} (hb : b ∈ Builtin.table) {argc : Nat}
    {tys : List Ty} (hl : StandsAt ls a (.taking tys (.call b.name argc) :: rest)) {args : List Value}
    (hlen : args.length = b.params.length) (n : Nat) :
    Simulates (Line.code ls) fuel (.at a args.reverse w) (p.call (n + 1) b.name args w) fun v w' =>
      .at (a + 1) v.toList w' := by
  simp only [Program.call, Builtin.find?_of_mem b hb]
  cases ha : b.action with
  | none =>
    refine .fails (n := 1) Stop.noConfusion fun m hm S F s hs j => ?_
    have hop := op_of_link hm hl
    rw [Line.instruction_taking, Op.ofInstruction, hp.target_unresolved hb ha] at hop
    exact .fails (f := .unresolvedCall b.name) (hs.ip_eq ▸ hop) rfl trivial (.inr rfl)
  | some action =>
    have hop (m : Machine) (hm : m.ops = (Line.code ls).link) := op_of_link hm hl
    simp only [Line.instruction_taking, Op.ofInstruction, Code.target_action _ hb ha] at hop
    rw [(Builtin.action_of_mem b hb ha).2] at hlen
    show Simulates _ _ _ (Evaluation.ofWorld (·.perform action args) w) _
    cases hr : w.perform action args with
    | error f =>
      have hstop : Evaluation.ofWorld (·.perform action args) w = .error (.fault f) := by
        rw [Evaluation.ofWorld, hr]; rfl
      rw [hstop]
      refine .fails (n := 1) Stop.noConfusion fun m hm S F s hs j => ?_
      refine .action hs (hop m hm) hlen trivial (.inl trivial) ?_ ?_
      · intro g hg
        cases hr.symm.trans hg
        exact .inr rfl
      · intro v w' hv
        cases hr.symm.trans hv
    | ok r =>
      have hok : Evaluation.ofWorld (·.perform action args) w = .ok r := by
        rw [Evaluation.ofWorld, hr]; rfl
      rw [hok]
      refine .ok (n := 1) fun m hm S F s hs j => ?_
      refine .action hs (hop m hm) hlen trivial trivial ?_ ?_
      · intro g hg
        cases hr.symm.trans hg
      · intro v w' hv t ht
        cases hr.symm.trans hv
        exact .done ht

/-- The calls of a program follow their evaluation, if no function that is called leaves a value
unused. -/
theorem Program.Coded.simulated (hp : p.Coded ls) (hsolid : p.Solid) (hquiet : p.Quiet) (n : Nat) :
    (p.call n).Simulated p ls n := by
  induction n with
  | zero => exact fun _ _ _ _ _ _ _ _ _ _ _ _ => .outOfFuel
  | succ n ih =>
    intro name sig a argc rest tys args w hcallee hn hl hlen
    cases hcallee with
    | builtin hb =>
      rw [Builtin.signature, List.length_map] at hlen
      exact .builtin hp hb hl hlen n
    | @function Γ f hf hname =>
      obtain ⟨b, k, k', body, hcoded, hbody, hentry⟩ := hp.standsAt hf
      rw [Function.signature, List.length_map] at hlen
      simp only [Program.call, hname, hp.find?_eq hf]
      have henter (m : Machine) (hm : m.ops = (Line.code ls).link) (S F s)
          (hs : Scene.at a args.reverse w S F s) :
          (∃ t, m.Step s t ∧ Scene.at (b + 1) args.reverse w S (F.push (a + 1)) t) ∨
            ∃ f, m.Fails s f ∧ f.IsOverflow := by
        have hop := op_of_link hm hl
        rw [Line.instruction_taking, Op.ofInstruction, Code.target_function hname hentry] at hop
        exact (Step.enter_or_fails hs hop).imp_right fun h => ⟨.stackOverflow m.maxStack, h, trivial⟩
      refine .back (hquiet _ hf hn) (.tick henter ?_)
      exact (hcoded.simulates hp hsolid (hp.valued hsolid n) ih hbody hlen).imp
          fun S F s hs => ⟨S, F.push (a + 1), hs, fun _ _ _ h => h⟩

end Labyrinth
