import Labyrinth.Proofs.Safety

/-!
# What stands on the stack behind a call

A call leaves the values below its arguments as they were. On top of them stand those that expressions
without use left while the call was open, one each, and then the value that was returned. So an operator
takes the values of its operands, and a parameter that of its argument, if nothing was left between them.
-/

namespace Labyrinth

open Machine

/-- From `s` a run comes for the first time to the place `b` with the open calls `F`, in `t`. On the
way it leaves `j` values unused. -/
inductive Program.Arrives (p : Program) (m : Machine) (b : Nat) (F : Stack Nat) :
    Nat → State → State → Prop
  | here {s : State} : s.ip = b → s.frames = F → Arrives p m b F 0 s s
  | step {j : Nat} {s t u : State} : ¬(s.ip = b ∧ s.frames = F) → m.Step s t →
      Arrives p m b F j t u → Arrives p m b F (p.discardedAt s.ip + j) s u

/-- Where a run arrives within some steps, and how many values it leaves unused on the way. -/
def Program.arrive? (p : Program) (m : Machine) (b : Nat) (F : Stack Nat) :
    Nat → State → Option (Nat × State)
  | n, s =>
    if s.ip = b ∧ s.frames.items = F.items then some (0, s)
    else match n with
      | 0 => none
      | n + 1 => do
        let (j, t) ← p.arrive? m b F n (← m.next? s)
        return (p.discardedAt s.ip + j, t)

/-- Whether an instruction is this call. -/
def Instruction.calls (name : String) (argc : Nat) : Instruction → Bool
  | .call callee n => callee = name && n = argc
  | _ => false

theorem Instruction.calls_iff {i : Instruction} {name : String} {argc : Nat} :
    i.calls name argc ↔ i = .call name argc := by
  cases i <;> simp [calls]

/-- The stack of `t` is that of `s` with `k` values in the place of the `n` on top. -/
def State.Trades (n k : Nat) (s t : State) : Prop :=
  n ≤ s.stack.items.length ∧
    ∃ vs : List Value, vs.length = k ∧ t.stack.items = vs ++ s.stack.items.drop n

variable {p : Program} {ls rest : List Line} {m : Machine} {Γ : Context} {s t u : State} {f : Function}
  {a b i j k n argc : Nat} {F : Stack Nat} {S : List Value} {w : World}

namespace Program.Arrives

theorem of_arrive? (h : p.arrive? m b F n s = some (j, t)) : p.Arrives m b F j s t := by
  induction n generalizing s j with
  | zero =>
    unfold arrive? at h
    split at h
    next hat => cases h; exact .here hat.1 (Stack.ext hat.2)
    · cases h
  | succ n ih =>
    unfold arrive? at h
    split at h
    next hat => cases h; exact .here hat.1 (Stack.ext hat.2)
    next hn =>
    obtain ⟨u, hu, h⟩ := Option.bind_eq_some_iff.mp h
    obtain ⟨⟨i, v⟩, hv, h⟩ := Option.bind_eq_some_iff.mp h
    cases h
    exact .step (fun hat => hn ⟨hat.1, by rw [hat.2]⟩) (step_of_next? hu) (ih hv)

theorem eq_of_here (h : p.Arrives m b F j s t) (hip : s.ip = b) (hframes : s.frames = F) :
    t = s ∧ j = 0 := by
  cases h with
  | here => exact ⟨rfl, rfl⟩
  | step hn => exact absurd ⟨hip, hframes⟩ hn

theorem of_step (h : p.Arrives m b F j s t) (hs : m.Step s u) (hn : ¬(s.ip = b ∧ s.frames = F)) :
    ∃ i, j = p.discardedAt s.ip + i ∧ p.Arrives m b F i u t := by
  cases h with
  | here hip hframes => exact absurd ⟨hip, hframes⟩ hn
  | step _ hst h =>
    obtain rfl := hs.det hst
    exact ⟨_, rfl, h⟩

/-- A run that has its ends before it arrives has one of them on the way. -/
theorem meets {W : Watch} {Q : Nat → State → Prop} (h : p.Arrives m b F j s t)
    (hcounts : ∀ s, W.counts s = p.discardedAt s.ip)
    (hholds : ∀ s, W.holds s → ¬(s.ip = b ∧ s.frames = F)) :
    ∃ n, ∀ i, Runs W m True Q n i s → ∃ i' j' u, Q i' u ∧ p.Arrives m b F j' u t ∧ i' + j' = i + j := by
  induction h with
  | @here s hip hframes =>
    refine ⟨1, fun i hrun => ?_⟩
    cases hrun with
    | done hq => exact ⟨i, 0, s, hq, .here hip hframes, rfl⟩
    | step hh _ _ => exact absurd ⟨hip, hframes⟩ (hholds _ hh)
    | fault hh _ _ => exact absurd ⟨hip, hframes⟩ (hholds _ hh)
  | @step j s t u hn hst harr ih =>
    obtain ⟨n, ih⟩ := ih
    refine ⟨n + 1, fun i hrun => ?_⟩
    cases hrun with
    | done hq => exact ⟨i, _, s, hq, .step hn hst harr, rfl⟩
    | fault _ hf _ => exact absurd (.fail hf) hst.not_ends
    | step hh hst' hrun =>
      obtain rfl := hst.det hst'
      obtain ⟨i', j', v, hq, harr, hsum⟩ := ih _ hrun
      exact ⟨i', j', v, hq, harr, by rw [hsum, hcounts, Nat.add_assoc]⟩

end Program.Arrives

theorem World.get?_receive_of_not_mem {name : String} {xs : List Param} :
    ∀ {vs : List Value} {w : World}, name ∉ xs.map (·.name) →
      (w.receive xs vs).store.get? name = w.store.get? name := by
  induction xs with
  | nil => exact fun _ => rfl
  | cons y xs ih =>
    intro vs w hn
    obtain ⟨hne, hn⟩ := not_or.mp (mt List.mem_cons.mpr hn)
    cases vs with
    | nil => rfl
    | cons v vs =>
      show ((w.assign y.name v).receive xs vs).store.get? name = w.store.get? name
      rw [ih hn, World.get?_assign, if_neg hne]

/-- Parameters of different names have the values that they got. -/
theorem World.get?_receive {xs : List Param} (hnodup : (xs.map (·.name)).Nodup) :
    ∀ {vs : List Value} {w : World} {i : Nat} {x : Param}, vs.length = xs.length → xs[i]? = some x →
      (w.receive xs vs).store.get? x.name = vs[i]? := by
  induction xs with
  | nil => exact nofun
  | cons y xs ih =>
    intro vs w i x hlen hx
    obtain ⟨v, vs, rfl⟩ := List.exists_cons_of_length_eq_add_one hlen
    obtain ⟨hy, hnodup⟩ := List.nodup_cons.mp hnodup
    cases i with
    | zero =>
      cases hx
      show ((w.assign y.name v).receive xs vs).store.get? y.name = some v
      rw [World.get?_receive_of_not_mem hy, World.get?_assign, if_pos rfl]
    | succ i => exact ih hnodup (Nat.succ.inj hlen) hx

theorem State.Inside.not_at {lo hi : Nat} (h : s.Inside F lo hi) : ¬(s.ip = hi ∧ s.frames = F) := by
  rintro ⟨rfl, hframes⟩
  rcases h with ⟨-, -, hlt⟩ | ⟨a, h⟩
  · exact absurd hlt (Nat.lt_irrefl _)
  · exact h.frames_ne hframes

namespace Regime

/-- Values may have any form, and variables may be missing. -/
def lax : Regime where
  typed := False
  defined := False

theorem lax_stores (Γ : Context) (store : Store) : lax.Stores p Γ store :=
  ⟨fun _ _ _ _ _ => nofun, nofun⟩

theorem lax_has {vs : List Value} {tys : List Ty} (h : vs.length = tys.length) :
    List.Forall₂ lax.Has vs tys :=
  List.forall₂_iff_get.mpr ⟨h, fun _ _ _ => nofun⟩

theorem lax_fits {vs : List Value} {xs : List Param} (h : vs.length = xs.length) :
    List.Forall₂ (fun v (x : Param) => lax.Has v x.ty) vs xs :=
  List.forall₂_iff_get.mpr ⟨h, fun _ _ _ => nofun⟩

/-- What runs to a place inside of a block is there when the run arrives. -/
theorem arrives_of_runs {Q : Nat → State → Prop} {lo : Nat} (h : p.Arrives m b F j s t)
    (hrun : ∀ n, Runs (lax.watch p (State.Inside F lo b)) m True Q n 0 s)
    (hat : ∀ j u, Q j u → u.ip = b ∧ u.frames = F) : Q j t := by
  obtain ⟨n, hmeet⟩ := h.meets (W := lax.watch p (State.Inside F lo b)) (Q := Q) (fun _ => rfl)
    fun _ hh => hh.2.not_at
  obtain ⟨i', j', u, hq, harr, hsum⟩ := hmeet 0 (hrun n)
  obtain ⟨hip, hframes⟩ := hat _ _ hq
  obtain ⟨rfl, rfl⟩ := harr.eq_of_here hip hframes
  rw [Nat.zero_add] at hsum
  exact hsum ▸ hq

end Regime

theorem State.trades_zero : s.Trades 0 k t ↔
    ∃ vs : List Value, vs.length = k ∧ t.stack.items = vs ++ s.stack.items := by
  unfold Trades
  rw [List.drop_zero]
  exact and_iff_right (Nat.zero_le _)

theorem State.At.refl (s : State) : s.At s.ip s.stack.items s.frames s.toWorld := ⟨rfl, rfl, rfl, rfl⟩

/-! ### Operands and arguments -/

/-- An expression leaves its value on the stack, over what was left unused. -/
theorem Expr.Coded.trades (h : Regime.lax.Governs p ls m) {e : Expr} {ty : Ty} {c : List Line}
    (he : e.Coded p Γ ty c) (hl : StandsAt ls s.ip c)
    (harr : p.Arrives m (s.ip + c.length) s.frames j s t) : s.Trades 0 (ty.values.length + j) t := by
  obtain ⟨vs, left, w, ht, -, hvs, hj, -⟩ := Regime.arrives_of_runs harr
    (fun n => he.runs h (h.calls n) hl (Nat.le_refl _) (Nat.le_refl _) (.refl s)
      (Regime.lax_stores Γ s.store)) fun _ _ ⟨_, _, _, hu, _⟩ => ⟨hu.ip_eq, hu.frames_eq⟩
  refine State.trades_zero.mpr ⟨vs ++ left, ?_, ht.items_eq⟩
  rw [List.length_append, hvs.length_eq, ← hj]
  rfl

/-- Arguments leave a value each, over or between what was left unused. -/
theorem Expr.CodedArgs.trades (h : Regime.lax.Governs p ls m) {slots : List Slot} {es : List Expr}
    {tys : List Ty} {c : List Line} (he : Expr.CodedArgs p Γ slots es tys c) (hl : StandsAt ls s.ip c)
    (harr : p.Arrives m (s.ip + c.length) s.frames j s t) : s.Trades 0 (es.length + j) t := by
  obtain ⟨vs, left, w, ht, -, hvs, hj, -⟩ := Regime.arrives_of_runs harr
    (fun n => he.runs h (h.calls n) hl (Nat.le_refl _) (Nat.le_refl _) (.refl s)
      (Regime.lax_stores Γ s.store)) fun _ _ ⟨_, _, _, hu, _⟩ => ⟨hu.ip_eq, hu.frames_eq⟩
  refine State.trades_zero.mpr ⟨vs.reverse ++ left, ?_, ht.items_eq⟩
  rw [List.length_append, List.length_reverse, hvs.length_eq, he.length_tys, he.length_args, ← hj]
  rfl

/-! ### Calls -/

namespace Program.Coded

/-- A call of a function of the program takes what its parameters ask for. -/
theorem call_line (h : p.Coded ls) (hf : (Γ, f) ∈ p.functions)
    (hi : (Line.code ls)[a]? = some (.call f.name argc)) :
    Builtin.find? f.name = none ∧ argc = f.params.length ∧
      ∃ rest, StandsAt ls a (.taking (f.params.map (·.ty)).reverse (.call f.name argc) :: rest) := by
  obtain ⟨b, k, k', body, hcoded, -, -⟩ := h.standsAt hf
  have hnone := hcoded.unnamed
  obtain ⟨⟨i, mark⟩, hl, rfl, -, hfits⟩ := h.fits hi
  obtain ⟨sig, tys, hcallee, hargc, hmark, htys⟩ := hfits.call f.name argc rfl
  dsimp only at hmark
  subst hmark
  obtain ⟨Δ, g, hg, hname, rfl⟩ :
      ∃ Δ g, (Δ, g) ∈ p.functions ∧ g.name = f.name ∧ sig = g.signature := by
    generalize hx : f.name = x at hcallee
    cases hcallee with
    | builtin hb => rw [hx, Builtin.find?_of_mem _ hb] at hnone; cases hnone
    | function hg _ => exact ⟨_, _, hg, rfl, rfl⟩
  cases h.eq_of_name_eq hg hf hname
  obtain rfl := htys (f.params.map (·.ty)) (by simp [Function.signature])
  refine ⟨hnone, by rw [hargc, Function.signature, List.length_map], ?_⟩
  exact StandsAt.of_getElem? hl

/-- At a call of a function that a run comes to, its arguments are there. -/
theorem arguments_there (h : p.Coded ls) (hsolid : p.Solid) {maze : Maze} {settings : Settings}
    (hs : (Line.code ls).Reaches maze settings m s) (hf : (Γ, f) ∈ p.functions)
    (hi : (Line.code ls)[s.ip]? = some (.call f.name argc)) : argc ≤ s.stack.items.length := by
  obtain ⟨hnone, rfl, rest, hl⟩ := h.call_line hf hi
  obtain ⟨s₀, n, hload, hs⟩ := hs
  obtain ⟨Δ, g, hg, hname⟩ := h.exists_main hload
  by_cases hparams : g.params = []
  · have hgov := Regime.governs_of_load (R := Regime.safe) h hsolid nofun nofun hload
    obtain ⟨vs, S, hitems, hvs⟩ :=
      (hgov.reached hg hname hparams hload hs).fine.takes _ (h.mark_at hl)
    have hlen := hvs.length_eq
    rw [Line.mark_taking, Mark.taking, List.length_reverse, List.length_map] at hlen
    rw [hitems, List.length_append]
    omega
  · -- A `main` with parameters fails at once, and not with a call.
    have hfails := h.fails_of_params hg hname hparams hload
    cases hs with
    | head hst _ => exact absurd (.fail hfails) hst.not_ends
    | refl =>
      obtain ⟨op, ho, hop⟩ := hfails
      obtain ⟨b, k, k', body, -, -, hentry⟩ := h.standsAt hf
      obtain ⟨agent, -, -, rfl, -⟩ := load_eq_ok hload
      obtain rfl := Option.some.inj ((op_at hl).symm.trans ho)
      rw [Line.instruction_taking, Op.ofInstruction, Code.target_function hnone hentry, take_eq,
        Machine.step] at hop
      split at hop <;> cases hop

/-- When a call returns, it has put its value and what was left unused in the place of its arguments. -/
theorem call_trades (h : p.Coded ls) (hgov : Regime.lax.Governs p ls m) (hf : (Γ, f) ∈ p.functions)
    (hi : (Line.code ls)[s.ip]? = some (.call f.name argc)) (hargc : argc ≤ s.stack.items.length)
    (harr : p.Arrives m (s.ip + 1) s.frames j s t) :
    s.Trades argc (f.ret.values.length + j) t ∧ ∃ u, m.Step u t ∧ u.stack = t.stack ∧
      u.frames = s.frames.push (s.ip + 1) ∧ (f.ret ≠ .void → m.ops[u.ip]? = some .ret) := by
  obtain ⟨hnone, rfl, rest, hl⟩ := h.call_line hf hi
  have hitems := List.take_append_drop f.params.length s.stack.items
  have hs : s.At s.ip ((s.stack.items.take f.params.length).reverse.reverse ++
      s.stack.items.drop f.params.length) s.frames s.toWorld := by
    rw [List.reverse_reverse, hitems]; exact .refl s
  have hargs : List.Forall₂ Regime.lax.Has (s.stack.items.take f.params.length).reverse
      (f.params.map (·.ty)) := Regime.lax_has (by simp [hargc])
  obtain ⟨n, hmeet⟩ := harr.meets (W := Regime.lax.watch p (State.Inside s.frames s.ip (s.ip + 1)))
    (Q := Regime.Returns _ p m f.ret _ _ _ _ 0) (fun _ => rfl) fun _ hh => hh.2.not_at
  obtain ⟨i', j', u, hret, harr', hsum⟩ := hmeet 0 (hgov.runs_enter (hgov.calls n) hf hnone hl hs hargs
    (fun _ _ _ _ _ => False.elim) (Nat.le_refl _) (Nat.lt_succ_self _))
  obtain ⟨b, vs, left, w, hu, -, hvs, hleft, -, hmark, hop⟩ := hret
  have hback := Step.back hu (hop.imp_right And.left)
  obtain ⟨i, hj', harr'⟩ := harr'.of_step hback fun hat => hu.above.frames_ne hat.2
  obtain ⟨rfl, rfl⟩ := harr'.eq_of_here rfl rfl
  have hquiet : p.discardedAt u.ip = 0 := by
    simp [Program.discardedAt, hu.ip_eq, hmark, Mark.taking]
  refine ⟨?_, u, hback, rfl, hu.frames_eq, fun hv => ?_⟩
  · have hlen : f.ret.values.length + j = (vs ++ left).length := by
      rw [List.length_append, hvs.length_eq]; omega
    rw [hlen]
    exact ⟨hargc, vs ++ left, rfl, hu.items_eq⟩
  · rw [hu.ip_eq]
    rcases hop with ho | ⟨-, hvoid⟩
    · exact ho
    · exact absurd hvoid hv

/-- When a call stands in front of the body of its function, every parameter has the value that stood in
its place on the stack. -/
theorem call_binds (h : p.Coded ls) (hgov : Regime.lax.Governs p ls m) (hf : (Γ, f) ∈ p.functions)
    (hi : (Line.code ls)[s.ip]? = some (.call f.name argc)) (hargc : argc ≤ s.stack.items.length)
    {entry : Nat} (hentry : Code.entry? (Line.code ls) f.name = some entry)
    (harr : p.Arrives m (entry + argc) (s.frames.push (s.ip + 1)) j s t) :
    s.Trades argc 0 t ∧ j = 0 ∧ ∀ i x, f.params[i]? = some x →
      t.store.get? x.name = s.stack.items[argc - 1 - i]? := by
  obtain ⟨hnone, rfl, rest, hl⟩ := h.call_line hf hi
  obtain ⟨a, k, k', body, hcoded, hbody, hentry'⟩ := h.standsAt hf
  obtain rfl := Option.some.inj (hentry.symm.trans hentry')
  have hop := hgov.op_at hl
  rw [Line.instruction_taking, Op.ofInstruction, Code.target_function hnone hentry] at hop
  have hquiet : p.discardedAt s.ip = 0 := by
    simp [Program.discardedAt, h.mark_at hl, Line.taking, Mark.taking]
  obtain ⟨u, hstep⟩ : ∃ u, m.Step s u := by
    cases harr with
    | here _ hframes => exact absurd hframes (Stack.push_ne _ _).symm
    | step _ hst _ => exact ⟨_, hst⟩
  have hu := Step.enter (.refl s) hop hstep
  obtain ⟨i, rfl, harr'⟩ := harr.of_step hstep fun hat => Stack.push_ne _ _ hat.2.symm
  rw [← List.take_append_drop f.params.length s.stack.items] at hu
  have hlen : (s.stack.items.take f.params.length).length = f.params.reverse.length := by
    simp [hargc]
  have hrev : f.params.length = f.params.reverse.length := List.length_reverse.symm
  rw [hrev] at harr'
  obtain ⟨hj, ht⟩ := Regime.arrives_of_runs harr' (fun n =>
    hgov.runs_params (Regime.lax_fits hlen) (fun x hx => hcoded.params x (List.mem_reverse.mp hx))
      hbody.left.left.right (Nat.le_refl _) (Nat.le_refl _) hu fun _ _ _ _ _ => False.elim)
    fun _ _ hq => ⟨hq.2.ip_eq, hq.2.frames_eq⟩
  refine ⟨⟨hargc, [], rfl, ht.items_eq⟩, by omega, fun i x hx => ?_⟩
  obtain ⟨hlt, rfl⟩ := List.getElem?_eq_some_iff.mp hx
  have hnodup : (f.params.reverse.map (·.name)).Nodup := by
    rw [List.map_reverse, List.nodup_reverse]
    exact (Context.nodup_of_declareParams hcoded.enter).1
  have hrev : f.params.reverse[f.params.length - 1 - i]? = some f.params[i] := by
    rw [List.getElem?_reverse (by omega), ← hx]
    congr 1
    omega
  rw [ht.world_eq, World.get?_receive hnodup hlen hrev, List.getElem?_take_of_lt (by omega)]

end Program.Coded

/-! ### Whole runs -/

/-- What a run keeps of the stack from a state on. -/
structure Program.Balances (p : Program) (ls : List Line) (m : Machine) (s : State) : Prop where
  /-- A call that returns has the value on top that was returned, and below its arguments nothing
  is changed. -/
  call : ∀ f argc j t, .function f ∈ p → (Line.code ls)[s.ip]? = some (.call f.name argc) →
    p.Arrives m (s.ip + 1) s.frames j s t →
    argc = f.params.length ∧ s.Trades argc (f.ret.values.length + j) t ∧
    ∃ u, m.Step u t ∧ u.stack = t.stack ∧ u.frames = s.frames.push (s.ip + 1) ∧
      (f.ret ≠ .void → m.ops[u.ip]? = some .ret)
  /-- In front of the body, each parameter has the value that stood in its place. -/
  params : ∀ f argc entry j t, .function f ∈ p → (Line.code ls)[s.ip]? = some (.call f.name argc) →
    Code.entry? (Line.code ls) f.name = some entry →
    p.Arrives m (entry + argc) (s.frames.push (s.ip + 1)) j s t →
    ∀ i x, f.params[i]? = some x → t.store.get? x.name = s.stack.items[argc - 1 - i]?
  /-- Under the value of the right operand, and what was left unused for it, stands that of the left
  operand. -/
  operands : ∀ Γ (l r : Expr) tl tr c d op ty, l.Coded p Γ tl c → r.Coded p Γ tr d →
    op.typeOf tl tr = .ok ty → StandsAt ls s.ip (c ++ d ++ [.taking [tr, tl] (.binary op)]) →
    ∀ i t, p.Arrives m (s.ip + c.length) s.frames i s t →
    ∀ j u, p.Arrives m (s.ip + c.length + d.length) s.frames j t u →
    ∃ x y vs S, t.stack.items = x :: S ∧ u.stack.items = y :: (vs ++ x :: S) ∧ vs.length = j
  /-- A value on top is, behind the code of further arguments, as far below as there are of them,
  and of the values that were left unused for them. -/
  arguments : ∀ Γ slots es tys c v j t, Expr.CodedArgs p Γ slots es tys c → StandsAt ls s.ip c →
    s.stack.items.head? = some v → p.Arrives m (s.ip + c.length) s.frames j s t →
    t.stack.items[es.length + j]? = some v

theorem Program.Arrives.at (h : p.Arrives m b F j s t) : t.ip = b ∧ t.frames = F := by
  induction h with
  | here hip hframes => exact ⟨hip, hframes⟩
  | step _ _ _ ih => exact ih

/-- The operands of an operator, and what stands between them. -/
theorem Expr.Coded.operands (h : Regime.lax.Governs p ls m) {l r : Expr} {tl tr ty : Ty}
    {c d : List Line} {op : BinaryOp} (hl : l.Coded p Γ tl c) (hr : r.Coded p Γ tr d)
    (hop : op.typeOf tl tr = .ok ty)
    (hstand : StandsAt ls s.ip (c ++ d ++ [.taking [tr, tl] (.binary op)]))
    (ht : p.Arrives m (s.ip + c.length) s.frames i s t)
    (hu : p.Arrives m (s.ip + c.length + d.length) s.frames j t u) :
    ∃ x y vs S, t.stack.items = x :: S ∧ u.stack.items = y :: (vs ++ x :: S) ∧ vs.length = j := by
  obtain ⟨hnl, hnr⟩ := BinaryOp.operands_of_typeOf hop
  obtain ⟨hip, hframes⟩ := ht.at
  obtain ⟨xs, hxs, hitems⟩ := State.trades_zero.mp (hl.trades h hstand.left.left ht)
  obtain ⟨ys, hys, hitems'⟩ :=
    State.trades_zero.mp (hr.trades h (hip ▸ hstand.left.right) (hip ▸ hframes ▸ hu))
  rw [Ty.values_of_ne_void hnl, List.length_singleton, Nat.add_comm] at hxs
  rw [Ty.values_of_ne_void hnr, List.length_singleton, Nat.add_comm] at hys
  obtain ⟨x, xs, rfl⟩ := List.exists_cons_of_length_eq_add_one hxs
  obtain ⟨y, ys, rfl⟩ := List.exists_cons_of_length_eq_add_one hys
  exact ⟨x, y, ys, xs ++ s.stack.items, hitems, by rw [hitems', hitems]; rfl, Nat.succ.inj hys⟩

theorem Program.Coded.balances (h : p.Coded ls) (hsolid : p.Solid) {maze : Maze} {settings : Settings}
    (hs : (Line.code ls).Reaches maze settings m s) : p.Balances ls m s := by
  obtain ⟨s₀, n, hload, -⟩ := id hs
  have hgov := Regime.governs_of_load (R := Regime.lax) h hsolid nofun nofun hload
  refine ⟨?_, ?_, ?_, ?_⟩
  · intro f argc j t hf hi harr
    obtain ⟨Δ, hf⟩ := Program.exists_mem_functionsFrom .initial hf
    have hargc := h.arguments_there hsolid hs hf hi
    obtain ⟨-, hlen, -⟩ := h.call_line hf hi
    exact ⟨hlen, h.call_trades hgov hf hi hargc harr⟩
  · intro f argc entry j t hf hi hentry harr
    obtain ⟨Δ, hf⟩ := Program.exists_mem_functionsFrom .initial hf
    exact (h.call_binds hgov hf hi (h.arguments_there hsolid hs hf hi) hentry harr).2.2
  · intro Γ l r tl tr c d op ty hl hr hop hstand i t ht j u hu
    exact hl.operands hgov hr hop hstand ht hu
  · intro Γ slots es tys c v j t hes hl hv harr
    obtain ⟨vs, hlen, ht⟩ := State.trades_zero.mp (hes.trades hgov hl harr)
    rw [ht, ← hlen, List.getElem?_append_right (Nat.le_refl _), Nat.sub_self, ← List.head?_eq_getElem?]
    exact hv

namespace Source

variable {source : String} {code : Code}

/-- A call leaves its value in the place of its arguments, over what expressions without use left while
it was open; so the values of operands and arguments stand in order if there was nothing of it. -/
theorem run_balances (hp : checked source = .ok p) (hc : compile source = .ok code) (maze : Maze)
    (settings : Settings) :
    ∃ ls, p.Coded ls ∧ code = Line.code ls ∧
      ∀ m s, code.Reaches maze settings m s → p.Balances ls m s := by
  obtain ⟨ls, hls, rfl⟩ := exists_coded hp hc
  exact ⟨ls, hls, rfl, fun m s hs => hls.balances (solid_of_checked hp) hs⟩

theorem run_balances_sample : ∃ p code, checked sample = .ok p ∧ compile sample = .ok code ∧
    ∃ ls, p.Coded ls ∧ code = Line.code ls ∧
      ∀ m s, code.Reaches .sample {} m s → p.Balances ls m s := by
  obtain ⟨p, code, hp, hc, -⟩ := exists_sample
  exact ⟨p, code, hp, hc, run_balances hp hc .sample {}⟩

/-- In this text, the call of `f` leaves behind what `is_wall` gives, and the subtraction takes that. -/
def leaving : String :=
  "func int f() { is_wall(); return 1; } func void main() { print(10 - f()); }"

/-- Behind a call of a function without parameters, the stack may be higher by more than the value that
was returned, and an operator takes what is not the value of its operand. -/
theorem run_leaving : ∃ p code m s f j t o, checked leaving = .ok p ∧ compile leaving = .ok code ∧
    code.Reaches .sample {} m s ∧ .function f ∈ p ∧ f.params = [] ∧ f.ret = .int ∧
    code[s.ip]? = some (.call f.name 0) ∧ p.Arrives m (s.ip + 1) s.frames j s t ∧
    t.stack.items.length = s.stack.items.length + 2 ∧
    code.run .sample {} = .ok o ∧ o.output = "-1\n" := by
  obtain ⟨p, hp, h⟩ := Except.any_toOption (x := checked leaving) (q := fun p =>
    (compile leaving).toOption.any fun code => (load code .sample {}).toOption.any fun x =>
      (x.1.next? x.2).any fun s => (p.filterMap Decl.function?).any fun f =>
        f.params.isEmpty && f.ret = .int && code[s.ip]?.any (·.calls f.name 0) &&
        ((p.arrive? x.1 (s.ip + 1) s.frames 5 s).any fun y =>
          y.2.stack.items.length = s.stack.items.length + 2) &&
        (code.run .sample {}).toOption.any (·.output = "-1\n")) (by decide +kernel)
  obtain ⟨code, hc, h⟩ := Except.any_toOption h
  obtain ⟨⟨m, s₀⟩, hload, h⟩ := Except.any_toOption h
  obtain ⟨s, hs, h⟩ := (Option.any_eq_true _ _).mp h
  obtain ⟨f, hf, h⟩ := List.any_eq_true.mp h
  simp only [Bool.and_eq_true, List.isEmpty_iff, decide_eq_true_eq] at h
  obtain ⟨⟨⟨⟨hparams, hret⟩, hcall⟩, harr⟩, hrun⟩ := h
  obtain ⟨i, hi, hcall⟩ := (Option.any_eq_true _ _).mp hcall
  obtain rfl := Instruction.calls_iff.mp hcall
  obtain ⟨⟨j, t⟩, harr, hlen⟩ := (Option.any_eq_true _ _).mp harr
  obtain ⟨o, ho, hout⟩ := Except.any_toOption hrun
  exact ⟨p, code, m, s, f, j, t, o, hp, hc, ⟨s₀, 1, hload, .single (step_of_next? hs)⟩,
    Program.mem_filterMap_function?.mp hf, hparams, hret, hi, .of_arrive? harr,
    of_decide_eq_true hlen, ho, of_decide_eq_true hout⟩

end Source

end Labyrinth
