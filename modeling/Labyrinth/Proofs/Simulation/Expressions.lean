import Labyrinth.Proofs.Evaluation.Values
import Labyrinth.Proofs.Simulation.Basic

/-!
# Code of expressions follows their evaluation

The code of an expression leaves the value that the expression has, and the code of arguments theirs, if
calls do what they should (`Calls.Simulated`).
-/

namespace Labyrinth

open Machine Evaluation

/-- A state at a place, with values on top of those that were there before. -/
def Scene.at (a : Nat) (vs : List Value) (w : World) : Scene := fun S F s => s.At a (vs ++ S) F w

/-- Calls of the program's functions and of built-ins do what `calls` says. -/
def Calls.Simulated (p : Program) (ls : List Line) (fuel : Nat) (calls : Calls) : Prop :=
  ∀ name sig a argc rest tys args w, p.Callee name sig → name ∈ p.callees →
    StandsAt ls a (.taking tys (.call name argc) :: rest) → args.length = sig.params.length →
    Simulates (Line.code ls) fuel (.at a args.reverse w) (calls name args w) fun v w' =>
      .at (a + 1) v.toList w'

theorem Calls.Simulated.of_le {p : Program} {ls : List Line} {fuel k : Nat} {calls : Calls}
    (h : calls.Simulated p ls fuel) (hk : k ≤ fuel) : calls.Simulated p ls k := by
  intro name sig a argc rest tys args w hc hn hl hlen
  exact (h name sig a argc rest tys args w hc hn hl hlen).of_le hk

namespace Simulates

variable {α β : Type} {code : Code} {fuel a b : Nat} {pre : Scene} {post : α → World → Scene} {w : World}
  {stop : Stop}

theorem ofOption {o : Option β} {g : β → α}
    (hsome : ∀ x, o = some x → Simulates code fuel pre (.ok (g x, w)) post)
    (hnone : o = none → Simulates code fuel pre (.error stop) post) :
    Simulates code fuel pre ((do return g (← .ofOption stop o) : Evaluation α) w) post := by
  cases o with
  | none => exact hnone rfl
  | some x => exact hsome x rfl

theorem value {x : Evaluation (Option Value)}
    (hx : Simulates code fuel pre (x w) fun v w' => .at b v.toList w')
    (hlen : ∀ v w', x w = .ok (v, w') → v.toList.length = 1) :
    Simulates code fuel pre (x.value w) fun v w' => .at b [v] w' := by
  refine hx.bind fun v w' hv => ?_
  cases v with
  | none => cases hlen _ _ hv
  | some v => exact .pure fun _ _ _ h => h

/-- Further values may stand below. -/
theorem under {r : Except Stop (α × World)} {vs : List Value} {f : α → List Value} (us : List Value)
    (h : Simulates code fuel (.at a vs w) r fun x w' => .at b (f x) w') :
    Simulates code fuel (.at a (vs ++ us) w) r fun x w' => .at b (f x ++ us) w' :=
  h.imp fun S F s hs => ⟨us ++ S, F, by rwa [Scene.at, ← List.append_assoc],
    fun x w' t ht => by rwa [Scene.at, List.append_assoc]⟩

end Simulates

variable {p : Program} {ls rest : List Line} {Γ : Context} {calls : Calls} {fuel a : Nat} {w : World}
  {m : Machine} {l : Line}

theorem Program.Coded.op_of_link (hm : m.ops = (Line.code ls).link) (hl : StandsAt ls a (l :: rest)) :
    m.ops[a]? = some (Op.ofInstruction (Line.code ls) l.instruction) := by
  rw [hm]; exact op_at hl

open Program.Coded

theorem Simulates.literal {i : Instruction} {v : Value} (hl : StandsAt ls a (.plain i :: rest))
    (hcode : Op.ofInstruction (Line.code ls) i = .push v) :
    Simulates (Line.code ls) fuel (.at a [] w) (.ok (some v, w)) fun v w' => .at (a + 1) v.toList w' := by
  refine .ok (n := 1) fun m hm S F s hs j => ?_
  have hop := op_of_link hm hl
  rw [Line.instruction_taking, hcode] at hop
  exact .push hs hop trivial trivial fun t ht => .done ht

/-- A value is turned into a float where its slot needs it. -/
theorem runs_widen {slot ty : Ty} (hl : StandsAt ls a (Line.widening slot ty)) {v : Option Value}
    (hlen : v.toList.length = ty.values.length) (hm : m.ops = (Line.code ls).link) {S : List Value}
    {F : Stack Nat} {s : State} (hs : Scene.at a v.toList w S F s) (j : Nat) :
    Runs (.faults Fault.IsOverflow) m False (fun _ t =>
      Scene.at (a + (Line.widening slot ty).length) (v.map (slot.widen ty)).toList w S F t) 1 j s := by
  by_cases hwide : slot.widens ty
  · obtain ⟨rfl, rfl⟩ : slot = .float ∧ ty = .int := by simpa [Ty.widens] using hwide
    cases v with
    | none => cases hlen
    | some v =>
      exact .change (g := fun v => .float v.toFloat) (x := v) (S := S) hs (op_of_link hm hl)
        (fun _ => rfl) trivial trivial fun _ ht => .done ht
  · have hnil : Line.widening slot ty = [] := if_neg hwide
    have hwiden : slot.widen ty = id := funext fun v => if_neg hwide
    rw [hnil, hwiden, Option.map_id]
    exact .done hs

mutual

theorem Expr.Coded.simulates (hsolid : p.Solid) (hvalued : calls.Valued p)
    (hcalls : calls.Simulated p ls fuel) {e : Expr} {ty : Ty} {c : List Line} :
    e.Coded p Γ ty c → ∀ {a : Nat} {w : World}, StandsAt ls a c →
      Simulates (Line.code ls) fuel (.at a [] w) (e.eval calls Γ w) fun v w' =>
        .at (a + c.length) v.toList w'
  | .int, a, w, hl => .literal hl rfl
  | .float, a, w, hl => .literal hl rfl
  | .bool, a, w, hl => .literal hl rfl
  | .var (x := x) _ _, a, w, hl => by
    refine .ofOption (o := w.store.get? x) (fun v hv => ?_) fun hnone => ?_
    · refine .ok (n := 1) fun m hm S F s hs j => ?_
      refine .load hs (op_of_link hm hl) trivial trivial ?_ ?_
      · intro hnone
        cases hnone.symm.trans hv
      · intro v' hv' t ht
        cases hv.symm.trans hv'
        exact .done ht
    · refine .fails (n := 1) Stop.noConfusion fun m hm S F s hs j => ?_
      refine .load hs (op_of_link hm hl) trivial (.inl trivial) (fun _ => .inr rfl) ?_
      intro v hv
      cases hnone.symm.trans hv
  | .binary (c := cl) (d := cr) hl' hr' hop, a, w, hl => by
    obtain ⟨hnl, hnr⟩ := BinaryOp.operands_of_typeOf hop
    have hstand := hl.right
    rw [List.length_append, ← Nat.add_assoc] at hstand
    refine ((hl'.simulates hsolid hvalued hcalls hl.left.left).value fun v w' =>
      hl'.length_eval_eq_one hsolid hvalued hnl).bind fun x w₁ _ => ?_
    -- The value of the left operand stays below while the right operand is evaluated.
    refine (((hr'.simulates hsolid hvalued hcalls hl.left.right).value fun v w' =>
      hr'.length_eval_eq_one hsolid hvalued hnr).under [x]).bind fun y w₂ _ => ?_
    rw [List.length_append, List.length_append, ← Nat.add_assoc, ← Nat.add_assoc]
    refine .ofOption (fun v hv => ?_) fun hnone => ?_
    · refine .ok (n := 1) fun m hm S F s hs j => ?_
      refine .binary hs (op_of_link hm hstand) trivial trivial ?_ ?_
      · intro hnone
        cases hnone.symm.trans hv
      · intro v' hv' t ht
        cases hv.symm.trans hv'
        exact .done ht
    · refine .fails (n := 1) Stop.noConfusion fun m hm S F s hs j => ?_
      refine .binary hs (op_of_link hm hstand) trivial (.inl trivial) (fun _ => .inr trivial) ?_
      intro v hv
      cases hnone.symm.trans hv
  | .unary (o := o) (c := c) he hop, a, w, hl => by
    have hne := (UnaryOp.ne_void_of_typeOf hop).1
    refine ((he.simulates hsolid hvalued hcalls hl.left).value fun v w' =>
      he.length_eval_eq_one hsolid hvalued hne).bind fun x w₁ _ => ?_
    rw [List.length_append, ← Nat.add_assoc]
    refine .ok (n := 1) fun m hm S F s hs j => ?_
    have hstep (s : State) : m.step (a + c.length) s (Op.ofInstruction (Line.code ls) o.instruction) =
        s.pop (a + c.length) >>= fun (v, s) => Next.state <$> m.push s (o.eval v) := by
      cases o <;> rfl
    exact .change (S := S) hs (op_of_link hm hl.right) hstep trivial trivial fun _ ht => .done ht
  | .call (c := c) hf hc hn ha, a, w, hl => by
    have hslots : Expr.slots Γ _ = _ := congrArg (fun sig => (sig.map Signature.params).getD []) hf
    rw [Expr.eval, hslots, List.length_append, ← Nat.add_assoc]
    refine (ha.simulates hsolid hvalued hcalls hl.left).bind fun vs w₁ hvs => ?_
    exact hcalls _ _ _ _ _ _ vs w₁ hc hn hl.right (ha.length_evalArgs hvs)

theorem Expr.CodedArgs.simulates (hsolid : p.Solid) (hvalued : calls.Valued p)
    (hcalls : calls.Simulated p ls fuel) {slots : List Slot} {es : List Expr} {tys : List Ty}
    {c : List Line} : Expr.CodedArgs p Γ slots es tys c → ∀ {a : Nat} {w : World}, StandsAt ls a c →
      Simulates (Line.code ls) fuel (.at a [] w) (Expr.evalArgs calls Γ slots es w) fun vs w' =>
        .at (a + c.length) vs.reverse w'
  | .nil, a, w, _ => .pure fun _ _ _ h => h
  | .cons (s := slot) (t := t) (c := ce) (d := d) he hfit hv hes, a, w, hl => by
    have hnt : t ≠ .void := Ty.ne_void_of_accepts hfit hv
    have hstand := hl.right
    rw [List.length_append, ← Nat.add_assoc] at hstand
    rw [Expr.evalArgs, he.ty_eq]
    refine ((he.simulates hsolid hvalued hcalls hl.left.left).value fun v w' =>
      he.length_eval_eq_one hsolid hvalued hnt).bind fun x w₁ hx => ?_
    have hlen := he.length_eval hsolid hvalued (value_eq_ok.mp hx)
    refine .before (fun m hm S F s hs j => runs_widen hl.left.right hlen hm hs j) ?_
    rw [List.length_append, List.length_append, ← Nat.add_assoc, ← Nat.add_assoc]
    refine ((hes.simulates hsolid hvalued hcalls hstand).under _).bind fun vs w₂ _ => ?_
    refine .pure fun S F s hs => ?_
    simpa [Scene.at] using hs

end

theorem Expr.CodedInto.simulates (hsolid : p.Solid) (hvalued : calls.Valued p)
    (hcalls : calls.Simulated p ls fuel) {e : Expr} {slot : Ty} {c : List Line}
    (he : e.CodedInto p Γ slot c) (hl : StandsAt ls a c) :
    Simulates (Line.code ls) fuel (.at a [] w) (e.evalInto calls Γ slot w) fun v w' =>
      .at (a + c.length) v.toList w' := by
  obtain ⟨he, hfit⟩ := he
  rw [Expr.evalInto, he.ty_eq, List.length_append, ← Nat.add_assoc]
  refine (he.simulates hsolid hvalued hcalls hl.left).bind fun v w₁ hv => ?_
  have hlen := he.length_eval hsolid hvalued hv
  exact .ok fun m hm S F s hs j => runs_widen hl.right hlen hm hs j

end Labyrinth
