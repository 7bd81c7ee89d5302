import Labyrinth.Proofs.Simulation.Expressions

/-!
# Code of statements follows their evaluation

The code of a statement goes on behind it or comes to a return, as its evaluation does. What expressions
without use left on the stack stands between. Every turn of a loop takes a step at least, so the machine
is as far as the fuel was.
-/

namespace Labyrinth

open Machine Evaluation Program.Coded

namespace Scene

/-- A state at a place, over values that were left unused. If all was quiet, there are none. -/
def leaving (q : Prop) (b : Nat) (w : World) : Scene := fun S F t =>
  ∃ left, t.At b (left ++ S) F w ∧ (q → left = [])

/-- A state at a return with a value. -/
def returning (code : Code) (q : Prop) (v : Option Value) (w : World) : Scene := fun S F t =>
  ∃ b left, t.At b (v.toList ++ left ++ S) F w ∧ (q → left = []) ∧
    (code.link[b]? = some .ret ∨ code.link[b]? = some .retVoid ∧ v = none)

/-- Where it goes on behind a statement, the end of which is at `b`. -/
def flow (code : Code) (q : Prop) (b : Nat) : Flow → World → Scene
  | .next, w => leaving q b w
  | .returned v, w => returning code q v w

variable {code : Code} {q q' : Prop} {b : Nat} {w : World} {S : List Value} {F : Stack Nat} {t : State}
  {left : List Value}

theorem leaving_of_at (h : Scene.at b [] w S F t) : leaving q b w S F t := ⟨[], h, fun _ => rfl⟩

theorem flow_imp {fl : Flow} (hq : q → q') (h : flow code q' b fl w S F t) :
    flow code q b fl w S F t := by
  cases fl with
  | next =>
    obtain ⟨left, ht, hleft⟩ := h
    exact ⟨left, ht, hleft ∘ hq⟩
  | returned v =>
    obtain ⟨a, left, ht, hleft, hop⟩ := h
    exact ⟨a, left, ht, hleft ∘ hq, hop⟩

/-- What was left unused before stays below. -/
theorem flow_under {fl : Flow} (hleft : q → left = []) (h : flow code q b fl w (left ++ S) F t) :
    flow code q b fl w S F t := by
  cases fl with
  | next =>
    obtain ⟨left', ht, hleft'⟩ := h
    refine ⟨left' ++ left, by simpa using ht, fun hq => ?_⟩
    rw [hleft' hq, hleft hq]
    rfl
  | returned v =>
    obtain ⟨a, left', ht, hleft', hop⟩ := h
    refine ⟨a, left' ++ left, by simpa using ht, fun hq => ?_, hop⟩
    rw [hleft' hq, hleft hq]
    rfl

end Scene

namespace Simulates

variable {code : Code} {fuel a b : Nat} {w : World} {q q' : Prop} {pre : Scene}
  {r : Except Stop (Flow × World)}

/-- What follows a statement from its start does so over values that were left unused. -/
theorem leaving (hq : q → q')
    (h : Simulates code fuel (.at a [] w) r fun fl w' => .flow code q' b fl w') :
    Simulates code fuel (.leaving q a w) r fun fl w' => .flow code q b fl w' := by
  refine h.imp fun S F s hs => ?_
  obtain ⟨left, hs, hleft⟩ := hs
  exact ⟨left ++ S, F, hs, fun fl w' t ht => Scene.flow_under hleft (Scene.flow_imp hq ht)⟩

theorem imp_quiet (hq : q → q')
    (h : Simulates code fuel pre r fun fl w' => .flow code q' b fl w') :
    Simulates code fuel pre r fun fl w' => .flow code q b fl w' :=
  h.imp fun S F _ hs => ⟨S, F, hs, fun _ _ _ => Scene.flow_imp hq⟩

end Simulates

variable {p : Program} {ls rest : List Line} {Γ : Context} {calls : Calls} {fuel a b : Nat} {w : World}
  {m : Machine} {q : Prop}

/-- A label behind a statement is passed. -/
theorem Simulates.label {r : Except Stop (Flow × World)} {pre : Scene} {name : String}
    (hl : StandsAt ls b (.plain (.label name) :: rest))
    (h : Simulates (Line.code ls) fuel pre r fun fl w' => .flow (Line.code ls) q b fl w') :
    Simulates (Line.code ls) fuel pre r fun fl w' => .flow (Line.code ls) q (b + 1) fl w' := by
  refine h.after (n := 1) fun fl w' _ m hm S F s hs j => ?_
  cases fl with
  | next =>
    obtain ⟨left, hs, hleft⟩ := hs
    exact .skip hs (op_of_link hm hl) trivial fun t ht => .done ⟨left, ht, hleft⟩
  | returned v => exact .done hs

/-- A value is stored in a variable. -/
theorem Simulates.store {x : Evaluation (Option Value)} {name : String} {tys : List Ty}
    (hl : StandsAt ls b (.taking tys (.store name) :: rest))
    (hx : Simulates (Line.code ls) fuel (.at a [] w) (x w) fun v w' => .at b v.toList w')
    (hlen : ∀ v w', x w = .ok (v, w') → v.toList.length = 1) :
    Simulates (Line.code ls) fuel (.at a [] w) ((do
      modify (·.assign name (← x.value))
      return Flow.next : Evaluation Flow) w) fun fl w' => .flow (Line.code ls) q (b + 1) fl w' := by
  refine (hx.value hlen).bind fun v w₁ _ => ?_
  refine .ok (n := 1) fun m hm S F s hs j => ?_
  have hop := op_of_link hm hl
  exact .store (v := v) (S := S) hs hop trivial fun t ht => .done (Scene.leaving_of_at ht)

/-- A condition, and the jump behind it. -/
theorem Simulates.jumpIfFalse {test : Expr} {c : List Line} {name : String} {target : Nat}
    {f : Value → Evaluation Flow} {post : Flow → World → Scene} (hvalued : calls.Valued p)
    (hsolid : p.Solid) (hcalls : calls.Simulated p ls fuel) (htest : test.Coded p Γ .bool c)
    (hl : StandsAt ls a (c ++ [.taking [.bool] (.jumpIfFalse name)]))
    (htarget : (Line.code ls).labelAddress? name = some target)
    (next : ∀ v w', Simulates (Line.code ls) fuel
      (.at (if v.truthy then a + c.length + 1 else target) [] w') (f v w') post) :
    Simulates (Line.code ls) fuel (.at a [] w) (((test.eval calls Γ).value >>= f) w) post := by
  refine ((htest.simulates hsolid hvalued hcalls hl.left).value fun v w' hv => ?_).bind
    fun v w₁ _ => ?_
  · rw [htest.length_eval hsolid hvalued hv]; rfl
  refine .before (n := 1) (fun m hm S F s hs j => ?_) (next v w₁)
  have hop := op_of_link hm hl.right
  rw [Line.instruction_taking, Op.ofInstruction, htarget] at hop
  exact .jumpIfFalse (v := v) (S := S) hs hop trivial fun t ht => .done ht

/-- A loop goes round once for each turn of the repetition. -/
theorem Simulates.loop {test : Expr} {c d : List Line} {start stop : String} {body : Evaluation Flow}
    (hp : p.Coded ls) (hsolid : p.Solid) (hvalued : calls.Valued p) (hcalls : calls.Simulated p ls fuel)
    (htest : test.Coded p Γ .bool c)
    (hl : StandsAt ls a ([.plain (.label start)] ++ c ++ [.taking [.bool] (.jumpIfFalse stop)] ++ d ++
      [.plain (.jump start), .plain (.label stop)]))
    (hbody : ∀ w, Simulates (Line.code ls) fuel (.at (a + 1 + c.length + 1) [] w) (body w)
      fun fl w' => .flow (Line.code ls) q (a + 1 + c.length + 1 + d.length) fl w') :
    ∀ (k : Nat) (w : World), k ≤ fuel →
      Simulates (Line.code ls) k (.at a [] w) (repeatWhile (test.eval calls Γ).value body k w)
        fun fl w' => .flow (Line.code ls) q (a + 1 + c.length + 1 + d.length + 1 + 1) fl w' := by
  have hstart := hl.left.left.left.left
  have hjump := hl.right
  simp only [List.length_append, List.length_singleton, ← Nat.add_assoc] at hjump
  have htarget := hp.labelAddress?_eq hjump.tail
  have htests : StandsAt ls (a + 1) (c ++ [.taking [.bool] (.jumpIfFalse stop)]) := by
    have htests := hl.left.left
    rw [List.append_assoc] at htests
    exact htests.right
  intro k
  induction k with
  | zero => exact fun _ _ => .outOfFuel
  | succ k ih =>
    intro w hk
    have hk := Nat.le_of_succ_le hk
    have hlabel (m : Machine) (hm : m.ops = (Line.code ls).link) (S F s) (hs : Scene.at a [] w S F s) :
        (∃ t, m.Step s t ∧ Scene.at (a + 1) [] w S F t) ∨ ∃ f, m.Fails s f ∧ f.IsOverflow :=
      .inl (Step.skip hs (op_of_link hm hstart))
    refine .tick hlabel ?_
    refine .jumpIfFalse hvalued hsolid (hcalls.of_le hk) htest htests htarget fun v w₁ => ?_
    cases hv : v.truthy with
    | false =>
      exact .label hjump.tail (.pure fun _ _ _ hs => Scene.leaving_of_at hs)
    | true =>
      refine ((hbody w₁).of_le hk).bind fun fl w₂ _ => ?_
      cases fl with
      | returned v => exact .pure fun _ _ _ hs => hs
      | next =>
        refine .before (n := 1) (fun m hm S F s hs j => ?_) ((ih w₂ hk).leaving id)
        obtain ⟨left, hs, hleft⟩ := hs
        have hop := op_of_link hm hjump
        rw [Line.instruction_taking, Op.ofInstruction, hp.labelAddress?_eq hstart] at hop
        exact .jump hs hop trivial fun t ht => .done ⟨left, ht, hleft⟩

mutual

theorem Stmt.Coded.simulates (hp : p.Coded ls) (hsolid : p.Solid) (hvalued : calls.Valued p)
    (hcalls : calls.Simulated p ls fuel) {Γ : Context} {n n' : Nat} {s : Stmt} {c : List Line} :
    s.Coded p Γ n n' c → ∀ {a : Nat} {w : World}, StandsAt ls a c →
      Simulates (Line.code ls) fuel (.at a [] w) (s.run calls fuel Γ w) fun fl w' =>
        .flow (Line.code ls) (s.discards Γ = false) (a + c.length) fl w'
  | .declare (t := t) hi _ hd, a, w, hl => by
    rw [List.length_append, ← Nat.add_assoc]
    exact .store hl.right (hi.simulates hsolid hvalued hcalls hl.left) fun v w' =>
      hi.length_evalInto_eq_one hsolid hvalued (hsolid _ hd)
  | .assign (t := t) hn hd hv, a, w, hl => by
    rw [List.length_append, ← Nat.add_assoc, Stmt.run, hn]
    exact .store hl.right (hv.simulates hsolid hvalued hcalls hl.left) fun v w' =>
      hv.length_evalInto_eq_one hsolid hvalued (hsolid _ hd)
  | .cond (c := c) (d := d) htest hbody, a, w, hl => by
    have hbodyAt := hl.left.right
    have hend := hl.right
    simp only [List.length_append, List.length_singleton, ← Nat.add_assoc] at hbodyAt hend ⊢
    refine .jumpIfFalse hvalued hsolid hcalls htest hl.left.left (hp.labelAddress?_eq hend)
      fun v w₁ => .label hend ?_
    cases hv : v.truthy with
    | false => exact .pure fun _ _ _ hs => Scene.leaving_of_at hs
    | true => exact hbody.simulates hp hsolid hvalued hcalls hbodyAt
  | .loop (c := c) (d := d) htest hbody, a, w, hl => by
    have hbodyAt := hl.left.right
    simp only [List.length_append, List.length_cons, List.length_nil, Nat.zero_add,
      ← Nat.add_assoc] at hbodyAt ⊢
    exact .loop hp hsolid hvalued hcalls htest hl
      (fun w => hbody.simulates hp hsolid hvalued hcalls hbodyAt) fuel w (Nat.le_refl _)
  | .retVoid _, a, w, hl => .pure fun S F s hs => ⟨a, [], hs, fun _ => rfl, .inr ⟨op_at hl, rfl⟩⟩
  | .ret hr hv, a, w, hl => by
    rw [Stmt.run, hr]
    refine (hv.simulates hsolid hvalued hcalls hl.left).bind fun v w₁ _ => ?_
    refine .pure fun S F s hs => ⟨_, [], ?_, fun _ => rfl, .inl (op_at hl.right)⟩
    simpa [Scene.at] using hs
  | .eval (t := ty) hv, a, w, hl => by
    rw [List.length_append, ← Nat.add_assoc]
    refine (hv.simulates hsolid hvalued hcalls hl.left).bind fun v w₁ hx => ?_
    have hlen := hv.length_eval hsolid hvalued hx
    refine .ok (n := 1) fun m hm S F s hs j => ?_
    refine .skip hs (op_of_link hm hl.right) trivial fun t ht => .done ⟨v.toList, ht, fun hq => ?_⟩
    have hvoid : ty = .void := by simpa [Stmt.discards, hv.ty_eq] using hq
    rw [hvoid] at hlen
    exact List.length_eq_zero_iff.mp hlen
  | .block hb, a, w, hl => hb.simulates hp hsolid hvalued hcalls hl

theorem Stmt.CodedAll.simulates (hp : p.Coded ls) (hsolid : p.Solid) (hvalued : calls.Valued p)
    (hcalls : calls.Simulated p ls fuel) {Γ : Context} {n n' : Nat} {ss : List Stmt} {c : List Line} :
    Stmt.CodedAll p Γ n ss n' c → ∀ {a : Nat} {w : World}, StandsAt ls a c →
      Simulates (Line.code ls) fuel (.at a [] w) (Stmt.runAll calls fuel Γ ss w) fun fl w' =>
        .flow (Line.code ls) (Stmt.discardsAny Γ ss = false) (a + c.length) fl w'
  | .nil, a, w, _ => .pure fun _ _ _ hs => Scene.leaving_of_at hs
  | .cons (s := s) (r := rest) hs hss, a, w, hl => by
    have hquiet (h : Stmt.discardsAny Γ (s :: rest) = false) :
        s.discards Γ = false ∧ Stmt.discardsAny (s.after Γ) rest = false := Bool.or_eq_false_iff.mp h
    refine ((hs.simulates hp hsolid hvalued hcalls hl.left).imp_quiet fun h => (hquiet h).1).bind
      fun fl w₁ _ => ?_
    cases fl with
    | returned v => exact .pure fun _ _ _ ht => ht
    | next =>
      rw [List.length_append, ← Nat.add_assoc]
      exact (hss.simulates hp hsolid hvalued hcalls hl.right).leaving fun h => (hquiet h).2

end

end Labyrinth
