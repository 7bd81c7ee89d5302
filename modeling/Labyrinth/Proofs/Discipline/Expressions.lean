import Labyrinth.Proofs.Discipline.Regime

/-!
# Expressions keep to a regime

The code of an expression leaves its value, given that the functions which it calls return within
fewer steps (`Regime.Calls`). The induction is on the derivation that the expression is in order.
-/

namespace Labyrinth

open Machine

/-! ### What calls are linked to -/

theorem Builtin.name_of_action_none : ∀ b ∈ table, b.action = none → b.name = "next_wall" := by
  decide

theorem Builtin.params_of_teleport :
    ∀ b ∈ table, b.action = some .teleport →
      b.signature.params = [Ty.int, Ty.int].map Slot.exact := by
  decide

/-- A built-in without an action is linked to nothing, since no function has its name. -/
theorem Program.Coded.target_unresolved {p : Program} {ls : List Line} (hp : p.Coded ls)
    {b : Builtin} (hb : b ∈ Builtin.table) (ha : b.action = none) :
    (Line.code ls).target b.name = .unresolved := by
  have hentry : Code.entry? (Line.code ls) b.name = none := by
    refine hp.entry?_eq_none.mpr fun x hx he => ?_
    obtain ⟨a, n, n', body, hf, -, -⟩ := hp.standsAt hx
    have hn := hf.unnamed
    rw [he, Builtin.find?_of_mem b hb] at hn
    cases hn
  simp only [Code.target, Builtin.find?_of_mem b hb, Option.bind_some, ha, hentry]

namespace Regime

variable {R : Regime} {p : Program} {Γ : Context} {ls rest c : List Line} {m : Machine}
  {n j j₀ a lo hi : Nat} {s : State} {S : List Value} {F : Stack Nat} {w : World}

/-- What a call of a function does within `n` steps: it comes to a return. -/
def FunctionRuns (R : Regime) (p : Program) (m : Machine) (Γ : Context) (f : Function)
    (entry n : Nat) : Prop :=
  ∀ (j : Nat) (s : State) (args S : List Value) (F : Stack Nat) (w : World),
    s.At entry (args.reverse ++ S) F w → List.Forall₂ R.Has args (f.params.map (·.ty)) →
    R.Typed p w.store →
    Runs (R.watch p (State.Above F)) m True (R.Returns p m f.ret (f.discards Γ = false) S F w j) n j s

/-- What calls do in fewer than `n` steps. -/
def Calls (R : Regime) (p : Program) (ls : List Line) (m : Machine) (n : Nat) : Prop :=
  ∀ k < n, ∀ (Γ : Context) (f : Function) (entry : Nat), (Γ, f) ∈ p.functions →
    Code.entry? (Line.code ls) f.name = some entry → R.FunctionRuns p m Γ f entry k

theorem Calls.mono {k : Nat} (h : R.Calls p ls m n) (hk : k ≤ n) : R.Calls p ls m k :=
  fun i hi => h i (Nat.lt_of_lt_of_le hi hk)

namespace Governs

/-- A call of a built-in leaves its value, or it fails outside of the grid. -/
theorem runs_builtin (h : R.Governs p ls m) {b : Builtin} (hb : b ∈ Builtin.table) {argc : Nat}
    {vs : List Value} {tys : List Ty}
    (hl : StandsAt ls a (.taking tys.reverse (.call b.name argc) :: rest))
    (hs : s.At a (vs.reverse ++ S) F w) (hvs : List.Forall₂ R.Has vs tys)
    (hlen : tys.length = b.params.length)
    (htys : ∀ ts : List Ty, b.signature.params = ts.map Slot.exact → tys = ts)
    (hw : R.Typed p w.store) (hlo : lo ≤ a) (hhi : a < hi) :
    Runs (R.watch p (State.Inside F lo hi)) m True (R.Leaves p b.ret (a + 1) S F w j) n j s := by
  obtain ⟨hop, hh, hcount⟩ := h.ready vs.reverse (State.Inside F lo hi) hl hs
    (List.forall₂_reverse_iff.mpr hvs) hw (hs.inside hlo hhi)
  cases n with
  | zero => exact .out trivial
  | succ n =>
  cases ha : b.action with
  | none =>
    rw [Op.ofInstruction, h.coded.target_unresolved hb ha] at hop
    exact .fails (f := .unresolvedCall b.name) (hs.ip_eq ▸ hop) rfl hh
      (Builtin.name_of_action_none b hb ha)
  | some action =>
    rw [Op.ofInstruction, Code.target_action _ hb ha] at hop
    obtain ⟨hret, harity⟩ := Builtin.action_of_mem b hb ha
    refine .action hs hop (by rw [hvs.length_eq, hlen, harity]) hh trivial ?_ ?_
    · intro f hf
      rcases World.perform_error hf with ⟨x, y, rfl⟩ | ⟨x, rfl, rfl, hx⟩
      · trivial
      · intro ht
        -- A typed regime hands integers to `teleport`.
        obtain rfl := htys _ (Builtin.params_of_teleport b hb ha)
        obtain ⟨y, z, hy, hz, rfl⟩ : ∃ y z, R.Has y .int ∧ R.Has z .int ∧ vs = [y, z] := by
          cases hvs with
          | cons hy hvs => cases hvs with
            | cons hz hvs => cases hvs; exact ⟨_, _, hy, hz, rfl⟩
        rcases List.mem_cons.mp hx with rfl | hx
        · exact hy ht
        · obtain rfl := List.mem_singleton.mp hx
          exact hz ht
    · intro v w' hw' t ht
      obtain ⟨hstore, hv⟩ := World.perform_ok hw'
      rw [hcount]
      refine .done ⟨v.toList, [], w', by simpa using ht, .of_store_eq hstore, ?_, by simp,
        fun _ => rfl⟩
      rw [hret]
      exact hv.imp fun _ _ hv _ => hv

/-- A call of a function comes to a return. -/
theorem runs_enter (h : R.Governs p ls m) (hcalls : R.Calls p ls m n) {Δ : Context}
    {f : Function} (hf : (Δ, f) ∈ p.functions) (hname : Builtin.find? f.name = none) {argc : Nat}
    {vs : List Value}
    (hl : StandsAt ls a (.taking (f.params.map (·.ty)).reverse (.call f.name argc) :: rest))
    (hs : s.At a (vs.reverse ++ S) F w) (hvs : List.Forall₂ R.Has vs (f.params.map (·.ty)))
    (hw : R.Typed p w.store) (hlo : lo ≤ a) (hhi : a < hi) :
    Runs (R.watch p (State.Inside F lo hi)) m True
      (R.Returns p m f.ret (f.discards Δ = false) S (F.push (a + 1)) w j) n j s := by
  obtain ⟨hop, hh, hcount⟩ := h.ready vs.reverse (State.Inside F lo hi) hl hs
    (List.forall₂_reverse_iff.mpr hvs) hw (hs.inside hlo hhi)
  obtain ⟨b, k, k', body, -, -, hentry⟩ := h.coded.standsAt hf
  rw [Op.ofInstruction, Code.target_function hname hentry] at hop
  cases n with
  | zero => exact .out trivial
  | succ n =>
  refine .enter hs hop hh trivial fun t ht => ?_
  rw [hcount]
  have hrun := hcalls n (Nat.lt_succ_self n) Δ f _ hf hentry j t vs S _ w ht hvs hw
  exact watch_mono (fun u hu => .inr ⟨a + 1, hu⟩) hrun

/-- A call of a function leaves its value. -/
theorem runs_function (h : R.Governs p ls m) (hcalls : R.Calls p ls m n) {Δ : Context}
    {f : Function} (hf : (Δ, f) ∈ p.functions) (hname : Builtin.find? f.name = none)
    (hcallee : f.name ∈ p.callees) {argc : Nat} {vs : List Value}
    (hl : StandsAt ls a (.taking (f.params.map (·.ty)).reverse (.call f.name argc) :: rest))
    (hs : s.At a (vs.reverse ++ S) F w) (hvs : List.Forall₂ R.Has vs (f.params.map (·.ty)))
    (hw : R.Typed p w.store) (hlo : lo ≤ a) (hhi : a < hi) :
    Runs (R.watch p (State.Inside F lo hi)) m True (R.Leaves p f.ret (a + 1) S F w j) n j s := by
  refine (h.runs_enter hcalls hf hname hl hs hvs hw hlo hhi).bind fun k hk j' u hu => ?_
  obtain ⟨c, xs, left, w', hu, hkeep, hxs, hj, hquiet, hmark, hret⟩ := hu
  cases k with
  | zero => exact .out trivial
  | succ k =>
  have hh' : (R.watch p (State.Inside F lo hi)).holds u := by
    refine ⟨⟨hu.world_eq ▸ hkeep.typed hw, fun mark hm => ?_⟩, .inr ⟨a + 1, hu.above⟩⟩
    rw [hu.ip_eq, hmark] at hm
    cases hm
    exact ⟨xs, left ++ S, by rw [hu.items_eq, List.append_assoc], hxs⟩
  have hcount' : (R.watch p (State.Inside F lo hi)).counts u = 0 := by
    simp [watch, Program.discardedAt, hu.ip_eq, hmark, Mark.taking]
  refine .back hu (hret.imp_right And.left) hh' fun t' ht' => ?_
  rw [hcount']
  exact .done ⟨xs, left, w', ht', hkeep, hxs, hj, fun ht =>
    hquiet ht (h.quiet ht _ hf hcallee)⟩

end Governs

/-- A literal leaves itself. -/
theorem Governs.runs_literal (h : R.Governs p ls m) {i : Instruction} {v : Value} {ty : Ty}
    (hl : StandsAt ls a (.plain i :: rest)) (hcode : Op.ofInstruction (Line.code ls) i = .push v)
    (hty : ty ≠ .void) (hv : v.Has ty) (hlo : lo ≤ a) (hhi : a < hi) (hs : s.At a S F w)
    (hw : R.Typed p w.store) :
    Runs (R.watch p (State.Inside F lo hi)) m True (R.Leaves p ty (a + 1) S F w j) n j s := by
  obtain ⟨hop, hh, hcount⟩ := h.ready [] (State.Inside F lo hi) hl hs .nil hw (hs.inside hlo hhi)
  cases n with
  | zero => exact .out trivial
  | succ n =>
  refine .push hs (hcode ▸ hop) hh trivial fun t ht => ?_
  rw [hcount]
  exact .done ⟨[v], [], w, ht, .refl w, values_of_has hty fun _ => hv, by simp, fun _ => rfl⟩

/-- A value is turned into a float where its slot needs it. -/
theorem Governs.runs_widening (h : R.Governs p ls m) {slot ty : Ty} (hfit : slot.accepts ty)
    (hl : StandsAt ls a (Line.widening slot ty)) (hlo : lo ≤ a)
    (hhi : a + (Line.widening slot ty).length ≤ hi) {w₀ : World}
    (hs : R.Leaves p ty a S F w₀ j₀ j s) (hw : R.Typed p w₀.store) :
    Runs (R.watch p (State.Inside F lo hi)) m True
      (R.Leaves p slot (a + (Line.widening slot ty).length) S F w₀ j₀) n j s := by
  by_cases hwide : slot.widens ty
  · obtain ⟨rfl, rfl⟩ : slot = .float ∧ ty = .int := by simpa [Ty.widens] using hwide
    obtain ⟨vs, left, w, hs, hkeep, hvs, hj, hleft⟩ := hs
    obtain ⟨v, rfl, hv⟩ := single (by decide) hvs
    obtain ⟨hop, hh, hcount⟩ := h.ready [v] (State.Inside F lo hi) (S := left ++ S) hl
      (by simpa using hs) (.cons hv .nil) (hkeep.typed hw) (hs.inside hlo hhi)
    cases n with
    | zero => exact .out trivial
    | succ n =>
    refine .change (g := fun v => .float v.toFloat) (x := v) (S := left ++ S) hs hop (fun _ => rfl) hh
      trivial fun t ht => ?_
    rw [hcount]
    exact .done ⟨[.float v.toFloat], left, w, ht, hkeep, values_of_has (by decide) fun _ => trivial, hj,
      hleft⟩
  · have hnil : Line.widening slot ty = [] := if_neg hwide
    obtain rfl : slot = ty := by
      cases slot <;> cases ty <;> first | rfl | exact absurd rfl hwide | cases hfit
    rw [hnil]
    exact .done hs

end Regime

open Regime

section

variable {R : Regime} {p : Program} {ls : List Line} {m : Machine} {Γ : Context}

mutual

theorem Expr.Coded.runs (h : R.Governs p ls m) {e : Expr} {ty : Ty} {c : List Line} :
    e.Coded p Γ ty c → ∀ {n j a lo hi : Nat} {s : State} {S : List Value} {F : Stack Nat} {w : World},
      R.Calls p ls m n → StandsAt ls a c → lo ≤ a → a + c.length ≤ hi → s.At a S F w →
      R.Stores p Γ w.store →
      Runs (R.watch p (State.Inside F lo hi)) m True (R.Leaves p ty (a + c.length) S F w j) n j s
  | .int, n, j, a, lo, hi, s, S, F, w, _, hl, hlo, hhi, hs, hw =>
    h.runs_literal hl rfl (by decide) trivial hlo hhi hs hw.typed
  | .float, n, j, a, lo, hi, s, S, F, w, _, hl, hlo, hhi, hs, hw =>
    h.runs_literal hl rfl (by decide) trivial hlo hhi hs hw.typed
  | .bool (b := b), n, j, a, lo, hi, s, S, F, w, _, hl, hlo, hhi, hs, hw =>
    h.runs_literal hl rfl (by decide) (Value.has_ofBool b) hlo hhi hs hw.typed
  | .var (x := x) hn hd, n, j, a, lo, hi, s, S, F, w, _, hl, hlo, hhi, hs, hw => by
    obtain ⟨hop, hh, hcount⟩ := h.ready [] (State.Inside F lo hi) hl hs .nil hw.typed
      (hs.inside hlo hhi)
    cases n with
    | zero => exact .out trivial
    | succ n =>
    refine .load hs hop hh trivial (fun hnone hdef => hw.defined hdef x _ hn hnone) ?_
    intro v hv t ht
    rw [hcount]
    exact .done ⟨[v], [], w, ht, .refl w,
      values_of_has (h.solid _ hd) (hw.typed x v _ hv hd), by simp, fun _ => rfl⟩
  | .binary (c := cl) (d := cr) hl' hr' hop', n, j, a, lo, hi, s, S, F, w, hcalls, hl, hlo, hhi, hs,
      hw => by
    simp only [List.length_append, List.length_singleton] at hhi
    obtain ⟨hnl, hnr⟩ := BinaryOp.operands_of_typeOf hop'
    refine (hl'.runs h hcalls hl.left.left hlo (by omega) hs hw).bind fun k hk j₁ t ht => ?_
    obtain ⟨vs, left, w₁, ht, hkeep, hvs, hj, hleft⟩ := ht
    obtain ⟨x, rfl, hx⟩ := single hnl hvs
    refine (hr'.runs h (hcalls.mono hk) hl.left.right (by omega) (by omega) ht
      (hkeep.stores hw)).bind fun k' hk' j₂ u hu => ?_
    obtain ⟨ws, left', w₂, hu, hkeep', hws, hj', hleft'⟩ := hu
    obtain ⟨y, rfl, hy⟩ := single hnr hws
    -- What the right operand left unused may stand in the place of the left operand.
    obtain ⟨x', left'', hitems, hx', hlen, hempty⟩ := settle (X := left ++ S) hleft' hx
    have hu : u.At (a + cl.length + cr.length) ([y, x'] ++ (left'' ++ (left ++ S))) F w₂ := by
      rw [show [y, x'] ++ (left'' ++ (left ++ S)) = y :: (left' ++ x :: (left ++ S)) by
        rw [hitems]; rfl]
      simpa using hu
    have hstand := hl.right
    rw [List.length_append, ← Nat.add_assoc] at hstand
    obtain ⟨hop, hh, hcount⟩ := h.ready [y, x'] (State.Inside F lo hi) hstand hu
      (.cons hy (.cons hx' .nil))
      (hkeep'.typed (hkeep.typed hw.typed)) (hu.inside (by omega) (by omega))
    cases k' with
    | zero => exact .out trivial
    | succ k' =>
    refine .binary hu hop hh trivial (fun _ => trivial) fun v hv t' ht' => ?_
    rw [hcount]
    refine .done ⟨[v], left'' ++ left, w₂, ?_, hkeep.trans hkeep', ?_, ?_, ?_⟩
    · simpa [Nat.add_assoc] using ht'
    · exact values_of_has (BinaryOp.ne_void_of_typeOf hop') fun ht =>
        BinaryOp.has_eval hop' (hx' ht) (hy ht) hv
    · rw [List.length_append]; omega
    · intro ht
      rw [hempty ht, hleft ht]
      rfl
  | .unary (o := o) (c := cl) he hop', n, j, a, lo, hi, s, S, F, w, hcalls, hl, hlo, hhi, hs, hw => by
    simp only [List.length_append, List.length_singleton] at hhi
    obtain ⟨hne, hnv⟩ := UnaryOp.ne_void_of_typeOf hop'
    refine (he.runs h hcalls hl.left hlo (by omega) hs hw).bind fun k hk j₁ t ht => ?_
    obtain ⟨vs, left, w₁, ht, hkeep, hvs, hj, hleft⟩ := ht
    obtain ⟨x, rfl, hx⟩ := single hne hvs
    have ht : t.At (a + cl.length) ([x] ++ (left ++ S)) F w₁ := by simpa using ht
    obtain ⟨hop, hh, hcount⟩ := h.ready [x] (State.Inside F lo hi) hl.right ht (.cons hx .nil)
      (hkeep.typed hw.typed)
      (ht.inside (by omega) (by omega))
    cases k with
    | zero => exact .out trivial
    | succ k =>
    refine .change (g := o.eval) (x := x) (S := left ++ S) ht hop
      (by cases o <;> exact fun _ => rfl) hh trivial fun t' ht' => ?_
    rw [hcount]
    refine .done ⟨[o.eval x], left, w₁, ?_, hkeep, ?_, hj, hleft⟩
    · simpa [Nat.add_assoc] using ht'
    · exact values_of_has hnv fun ht => UnaryOp.has_eval hop' (hx ht)
  | .call (g := sig) (c := cl) _ hc hname ha, n, j, a, lo, hi, s, S, F, w, hcalls, hl,
      hlo, hhi, hs, hw => by
    simp only [List.length_append, List.length_singleton] at hhi
    refine (ha.runs h hcalls hl.left hlo (by omega) hs hw).bind fun k hk j₁ t ht => ?_
    obtain ⟨vs, left, w₁, ht, hkeep, hvs, hj, hleft⟩ := ht
    have ht : t.At (a + cl.length) (vs.reverse ++ (left ++ S)) F w₁ := by simpa using ht
    have hcall : Runs (R.watch p (State.Inside F lo hi)) m True
        (R.Leaves p sig.ret (a + cl.length + 1) (left ++ S) F w₁ j₁) k j₁ t := by
      have hlen := ha.length_tys
      cases hc with
      | builtin hb =>
        rw [Builtin.signature, List.length_map] at hlen
        exact h.runs_builtin hb hl.right ht hvs hlen (ha.tys_eq) (hkeep.typed hw.typed) (by omega)
          (by omega)
      | @function Δ f hf hn =>
        obtain rfl := ha.tys_eq (f.params.map (·.ty)) (by simp [Function.signature])
        exact h.runs_function (hcalls.mono hk) hf hn hname hl.right ht hvs (hkeep.typed hw.typed)
          (by omega) (by omega)
    refine hcall.imp fun j₂ u hu => ?_
    obtain ⟨xs, left', w₂, hu, hkeep', hxs, hj', hleft'⟩ := hu
    refine ⟨xs, left' ++ left, w₂, ?_, hkeep.trans hkeep', hxs, ?_, ?_⟩
    · simpa [Nat.add_assoc] using hu
    · rw [List.length_append]; omega
    · intro ht
      rw [hleft' ht, hleft ht]
      rfl

/-- Arguments leave their values, the last one on top. -/
theorem Expr.CodedArgs.runs (h : R.Governs p ls m) {slots : List Slot} {args : List Expr}
    {tys : List Ty} {c : List Line} :
    Expr.CodedArgs p Γ slots args tys c → ∀ {n j a lo hi : Nat} {s : State} {S : List Value}
      {F : Stack Nat} {w : World}, R.Calls p ls m n → StandsAt ls a c → lo ≤ a → a + c.length ≤ hi →
      s.At a S F w → R.Stores p Γ w.store →
      Runs (R.watch p (State.Inside F lo hi)) m True
        (fun j' t => ∃ vs left w', t.At (a + c.length) (vs.reverse ++ left ++ S) F w' ∧
          R.Keeps p w w' ∧ List.Forall₂ R.Has vs tys ∧ left.length + j = j' ∧
          (R.typed → left = [])) n j s
  | .nil, n, j, a, lo, hi, s, S, F, w, _, _, _, _, hs, _ =>
    .done ⟨[], [], w, hs, .refl w, .nil, by simp, fun _ => rfl⟩
  | .cons (c := ce) (d := cs) he hfit hv hes, n, j, a, lo, hi, s, S, F, w,
      hcalls, hl, hlo, hhi, hs, hw => by
    simp only [List.length_append] at hhi
    refine (he.runs h hcalls hl.left.left hlo (by omega) hs hw).bind fun k hk j₁ t ht => ?_
    refine (h.runs_widening hfit hl.left.right (by omega) (by omega) ht hw.typed).bind
      fun k₁ hk₁ j₂ t₁ ht₁ => ?_
    obtain ⟨vs, left, w₁, ht₁, hkeep, hvs, hj, hleft⟩ := ht₁
    obtain ⟨x, rfl, hx⟩ := single hv hvs
    have hstand := hl.right
    rw [List.length_append, ← Nat.add_assoc] at hstand
    refine (hes.runs h (hcalls.mono (Nat.le_trans hk₁ hk)) hstand (by omega) (by omega) ht₁
      (hkeep.stores hw)).imp fun j₃ t₂ ht₂ => ?_
    obtain ⟨ws, left', w₂, ht₂, hkeep', hws, hj', hleft'⟩ := ht₂
    obtain ⟨x', left'', hitems, hx', hlen, hempty⟩ := settle (X := left ++ S) hleft' hx
    refine ⟨x' :: ws, left'' ++ left, w₂, ?_, hkeep.trans hkeep', .cons hx' hws, ?_, ?_⟩
    · have hstack : ws.reverse ++ left' ++ ([x] ++ left ++ S) =
          (x' :: ws).reverse ++ (left'' ++ left) ++ S := by
        simpa using hitems
      rw [hstack] at ht₂
      simpa [Nat.add_assoc] using ht₂
    · rw [List.length_append]; omega
    · intro ht
      rw [hempty ht, hleft ht]
      rfl

end

/-- An expression in a slot leaves a value of the type of the slot. -/
theorem Expr.CodedInto.runs (h : R.Governs p ls m) {e : Expr} {slot : Ty} {c : List Line}
    (he : e.CodedInto p Γ slot c) {n j a lo hi : Nat} {s : State} {S : List Value} {F : Stack Nat}
    {w : World} (hcalls : R.Calls p ls m n) (hl : StandsAt ls a c) (hlo : lo ≤ a)
    (hhi : a + c.length ≤ hi) (hs : s.At a S F w) (hw : R.Stores p Γ w.store) :
    Runs (R.watch p (State.Inside F lo hi)) m True (R.Leaves p slot (a + c.length) S F w j) n j s := by
  cases he with
  | mk he hfit =>
    rw [List.length_append] at hhi
    refine (he.runs h hcalls hl.left hlo (by omega) hs hw).bind fun k hk j₁ t ht => ?_
    rw [List.length_append, ← Nat.add_assoc]
    exact h.runs_widening hfit hl.right (by omega) (by omega) ht hw.typed

/-- A condition leaves a truth value, which is true if it is the literal `true`. -/
theorem Expr.Coded.runs_test (h : R.Governs p ls m) {e : Expr} {c : List Line}
    (he : e.Coded p Γ .bool c) {n j a lo hi : Nat} {s : State} {S : List Value} {F : Stack Nat}
    {w : World} (hcalls : R.Calls p ls m n) (hl : StandsAt ls a c) (hlo : lo ≤ a)
    (hhi : a + c.length ≤ hi) (hs : s.At a S F w) (hw : R.Stores p Γ w.store) :
    Runs (R.watch p (State.Inside F lo hi)) m True
      (fun j' t => ∃ v left w', t.At (a + c.length) ([v] ++ (left ++ S)) F w' ∧ R.Keeps p w w' ∧
        R.Has v .bool ∧ left.length + j = j' ∧ (R.typed → left = []) ∧ (e.isTrue → v.truthy))
      n j s := by
  by_cases htrue : e.isTrue
  · obtain ⟨k, rfl⟩ : ∃ k, e = .bool k true := by
      unfold Expr.isTrue at htrue
      split at htrue
      · exact ⟨_, rfl⟩
      · cases htrue
    cases he
    obtain ⟨hop, hh, hcount⟩ := h.ready [] (State.Inside F lo hi) hl hs .nil hw.typed
      (hs.inside hlo hhi)
    cases n with
    | zero => exact .out trivial
    | succ n =>
    refine .push hs hop hh trivial fun t ht => ?_
    rw [hcount]
    exact .done ⟨.int 1, [], w, ht, .refl w, fun _ => .inr rfl, by simp, fun _ => rfl, fun _ => rfl⟩
  · refine (he.runs h hcalls hl hlo hhi hs hw).imp fun j' t ht => ?_
    obtain ⟨vs, left, w', ht, hkeep, hvs, hj, hleft⟩ := ht
    obtain ⟨v, rfl, hv⟩ := single (by decide) hvs
    exact ⟨v, left, w', by simpa using ht, hkeep, hv, hj, hleft, fun ht => absurd ht htrue⟩

end

end Labyrinth
