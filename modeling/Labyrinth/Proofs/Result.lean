import Labyrinth.Proofs.Returns
import Labyrinth.Proofs.Operands

/-!
# What a run gives as its result

A run that finishes stands at a return of `main`, or at its end. In a `main` with a value that is the
return statement whose expression was evaluated last, and the result is the value of that. In one
without, the result is none, but for a statement that returns a call without a value: it gives what
expressions without use have left, if there is something.
-/

namespace Labyrinth

open Machine

variable {p : Program} {ls : List Line} {code : Code} {m : Machine} {s t u x y s₀ : State}
  {g : Segment} {F : Stack Nat} {b i j lo n r : Nat} {maze : Maze} {settings : Settings}

/-! ### Back along an activation -/

/-- What happens in further activations does not count as an arrival. -/
theorem Program.Arrives.of_goes (hgo : m.Goes x y) (h : p.Arrives m b F j y u)
    (habove : x.Above (F.push r)) : ∃ j', p.Arrives m b F j' x u := by
  induction hgo generalizing j with
  | refl => exact ⟨j, h⟩
  | step hgo hst _ ih =>
    have hne := (habove.keep hgo.frames_eq).frames_ne
    exact ih (.step (fun hat => hne hat.2) hst h) habove
  | call hgo hin hpush hgo' hout _ _ ih ih' =>
    have habove' := habove.keep hgo.frames_eq
    have hopen := habove'.open hpush
    have hne := (hopen.keep hgo'.frames_eq).frames_ne
    obtain ⟨j', h⟩ := ih' (.step (fun hat => hne hat.2) hout h) hopen
    exact ih (.step (fun hat => habove'.frames_ne hat.2) hin h) habove

/-- Where no label stands, control comes from the place in front: what an activation comes to behind
`lo` it came to through `lo`. -/
theorem Machine.Goes.exists_arrives (hops : m.ops = code.link) (hs : s.Sound code)
    (hlabel : ∀ q, lo < q → q ≤ b → s.ip ≠ q ∧ ∀ name, code[q]? ≠ some (.label name)) :
    ∀ {n : Nat} {y : State}, m.Goes s y → y.ip = lo + n → y.ip ≤ b →
      p.Arrives m b s.frames j y u → ∃ x j', m.Goes s x ∧ x.ip = lo ∧ p.Arrives m b s.frames j' x u := by
  intro n
  induction n generalizing j with
  | zero => exact fun hgo hip _ h => ⟨_, _, hgo, hip, h⟩
  | succ n ih =>
    intro y hgo hip hb h
    obtain ⟨hstart, hno⟩ := hlabel y.ip (by omega) hb
    cases hgo with
    | refl => exact absurd rfl hstart
    | @step _ x _ hgo hst hkeep =>
      obtain ⟨k, hsteps⟩ := hgo.steps
      have hflow := (hs.steps hops hsteps).flows hops hst hkeep
      obtain hfrom := hflow.from.resolve_right fun ⟨name, hl⟩ => hno name hl
      exact ih hgo (by omega) (by omega) (.step (fun hat => by omega) hst h)
    | @call _ x a z _ hgo hin hpush hgo' hout hkeep hback =>
      have hopen : a.Above (s.frames.push (x.ip + 1)) := ⟨[], by rw [hpush, hgo.frames_eq]; rfl⟩
      have hne := (hopen.keep hgo'.frames_eq).frames_ne
      obtain ⟨j', h⟩ := Program.Arrives.of_goes hgo' (.step (fun hat => hne hat.2) hout h) hopen
      exact ih hgo (by omega) (by omega) (.step (fun hat => by omega) hin h)

theorem Machine.Steps.exists_arrives (hno : ∀ x, x.ip = t.ip → x.frames = t.frames → ∀ y, ¬m.Step x y)
    (h : m.Steps n s t) : ∃ j, p.Arrives m t.ip t.frames j s t := by
  induction h with
  | refl s => exact ⟨0, .here rfl rfl⟩
  | head hst _ ih =>
    obtain ⟨j, h⟩ := ih hno
    exact ⟨_, .step (fun hat => hno _ hat.1 hat.2 _ hst) hst h⟩

/-- A run is followed up to where it arrives, if its ends have no step behind them. -/
theorem Program.Arrives.runs {W : Watch} {Q : Nat → State → Prop} (h : p.Arrives m b F j s t)
    (hcounts : ∀ s, W.counts s = p.discardedAt s.ip) (hQ : ∀ {i s t}, Q i s → ¬m.Step s t) :
    ∃ k, ∀ i, Runs W m True Q (n + k) i s → Runs W m True Q n (i + j) t := by
  induction h with
  | here => exact ⟨0, fun i hrun => hrun⟩
  | step _ hst _ ih =>
    obtain ⟨k, ih⟩ := ih
    refine ⟨k + 1, fun i hrun => ?_⟩
    have hrun := ih _ (hrun.tail (fun hq => hQ hq hst) hst)
    rwa [hcounts, Nat.add_assoc] at hrun

/-! ### The return that a run ends with -/

/-- In the code of an expression no label and no head of a function stands. -/
theorem Line.not_label_or_func {c : List Line} (hlabels : Line.labels c = []) (hheads : Line.heads c = [])
    {l : Line} (hl : l ∈ c) :
    (∀ name, l.instruction ≠ .label name) ∧ ∀ name arity, l.instruction ≠ .func name arity := by
  have hmem : l.instruction ∈ Line.code c := List.mem_map_of_mem hl
  constructor
  · intro name he
    have hnone := List.filterMap_eq_nil_iff.mp hlabels _ hmem
    rw [he] at hnone
    cases hnone
  · intro name arity he
    have hnone := List.filterMap_eq_nil_iff.mp hheads _ hmem
    rw [he] at hnone
    cases hnone

/-- An expression in a slot leaves its value on the stack, over what was left unused. -/
theorem Expr.CodedInto.trades (h : Regime.lax.Governs p ls m) {Γ : Context} {e : Expr} {slot : Ty}
    {c : List Line} (he : e.CodedInto p Γ slot c) (hl : StandsAt ls s.ip c)
    (harr : p.Arrives m (s.ip + c.length) s.frames j s t) :
    s.Trades 0 (slot.values.length + j) t := by
  obtain ⟨vs, left, w, ht, -, hvs, hj, -⟩ := Regime.arrives_of_runs harr
    (fun n => he.runs h (h.calls n) hl (Nat.le_refl _) (Nat.le_refl _) (.refl s)
      (Regime.lax_stores Γ s.store)) fun _ _ ⟨_, _, _, hu, _⟩ => ⟨hu.ip_eq, hu.frames_eq⟩
  refine State.trades_zero.mpr ⟨vs ++ left, ?_, ht.items_eq⟩
  rw [List.length_append, hvs.length_eq, ← hj]
  rfl

theorem Expr.CodedInto.typeOf_void {Γ : Context} {e : Expr} {c : List Line}
    (he : e.CodedInto p Γ .void c) : e.typeOf Γ = .ok .void := by
  cases he with
  | @mk ty _ he hfit =>
    cases ty with
    | void => exact he.typeOf
    | _ => cases hfit

/-- What a run from `s₀` in the function `g` gives, when it ends at `u` in that activation. -/
inductive Program.Results (p : Program) (code : Code) (m : Machine) (g : Segment) (s₀ u : State) :
    Option Value → Prop
  /-- The value of a return statement of the function, whose expression was evaluated last: it stands on
  what was left unused meanwhile. -/
  | value {x : Site} {k : Location} {e : Expr} {s : State} {j : Nat} {v : Value} {left : List Value} :
      g.function.ret ≠ .void → x ∈ g.sites → x.part = .stmt (.ret k (some e)) → x.stop = u.ip + 1 →
      m.Goes s₀ s → s.ip = x.start → p.Arrives m u.ip s₀.frames j s u →
      u.stack.items = v :: left ++ s.stack.items → left.length = j → Results p code m g s₀ u (some v)
  /-- Nothing, at the end of a function without a value or at a return without one. -/
  | none : g.function.ret = .void → code[u.ip]? = some .fin ∨ code[u.ip]? = some .retVoid →
      Results p code m g s₀ u none
  /-- What was left unused last, if something was, at a return statement with an expression that has no
  value. -/
  | left {x : Site} {k : Location} {e : Expr} {j : Nat} :
      g.function.ret = .void → x ∈ g.sites → x.part = .stmt (.ret k (some e)) → x.stop = u.ip + 1 →
      e.typeOf x.context = .ok .void → p.Arrives m u.ip s₀.frames j s₀ u →
      u.stack.items.length = j → Results p code m g s₀ u u.stack.top?

namespace Program.Coded

variable (hp : p.Coded ls)

include hp

theorem exists_return (hg : g ∈ p.segments) {q : Nat} (hlo : g.start < q) (hhi : q + 1 < g.stop)
    (hret : (Line.code ls)[q]? = some .ret) :
    ∃ x ∈ g.sites, ∃ k e c, x.part = .stmt (.ret k (some e)) ∧ x.stop = q + 1 ∧
      q = x.start + c.length ∧ StandsAt ls x.start c ∧ e.CodedInto p x.context g.function.ret c := by
  have hstands := hp.segments_stand g hg
  rw [Line.getElem?_code, Option.map_eq_some_iff] at hret
  obtain ⟨l, hl, hret⟩ := hret
  obtain ⟨x, hx, k, e, hpart, hstop, hty⟩ := (hstands.closes hlo hhi hl).valued hret
  obtain ⟨c, hc, hstop', hcoded⟩ := hstands.sites x hx
  rw [hpart] at hcoded
  obtain ⟨n, n', hcoded⟩ := hcoded
  cases hcoded with
  | ret hr hv =>
    obtain rfl := Option.some.inj (hr.symm.trans hty)
    rw [List.length_append, List.length_singleton] at hstop'
    exact ⟨x, hx, k, e, _, hpart, hstop, by omega, hc.left, hv⟩

/-- An activation comes to the end of the code of an expression from its start. -/
theorem exists_start (hops : m.ops = (Line.code ls).link) (hg : g ∈ p.segments)
    (hs₀ : s₀.Sound (Line.code ls)) (hip : s₀.ip = g.start + 1) (hgo : m.Goes s₀ u) {Γ : Context}
    {e : Expr} {slot : Ty} {a : Nat} {c : List Line} (he : e.CodedInto p Γ slot c) (hl : StandsAt ls a c)
    (hu : u.ip = a + c.length) (hret : (Line.code ls)[u.ip]? = some .ret) :
    ∃ s j, m.Goes s₀ s ∧ s.ip = a ∧ p.Arrives m u.ip s₀.frames j s u := by
  obtain ⟨n, n', body, -, hhead, -, -⟩ := hp.segments_stand g hg
  obtain ⟨hlabels, hheads⟩ := he.labels_heads
  have hline {q : Nat} (hq : a ≤ q) (hq' : q < u.ip) :
      ∃ l ∈ c, (Line.code ls)[q]? = some l.instruction := by
    obtain ⟨k, rfl⟩ := Nat.exists_eq_add_of_le hq
    have hk : k < c.length := by omega
    refine ⟨_, List.getElem_mem hk, ?_⟩
    rw [Line.getElem?_code, hl.getElem?_add hk, List.getElem?_eq_getElem hk, Option.map_some]
  refine Machine.Goes.exists_arrives hops hs₀ (fun q hq hq' => ⟨?_, ?_⟩) hgo hu (Nat.le_refl _)
    (.here rfl hgo.frames_eq)
  · -- The head of the function stands in front of the start.
    rintro rfl
    obtain ⟨l, hl, hat⟩ := hline (q := g.start) (by omega) (by omega)
    exact (Line.not_label_or_func hlabels hheads hl).2 _ _
      (Option.some.inj (hat.symm.trans (Line.code_at hhead)))
  · intro name hname
    rcases Nat.lt_or_eq_of_le hq' with hlt | rfl
    · obtain ⟨l, hl, hat⟩ := hline (Nat.le_of_lt hq) hlt
      exact (Line.not_label_or_func hlabels hheads hl).1 _ (Option.some.inj (hat.symm.trans hname))
    · cases hret.symm.trans hname

/-- A run in a `main` without a value has left unused what is on the stack when it ends. -/
theorem length_items (hgov : Regime.lax.Governs p ls m) {f : Function} {Γ : Context}
    (hf : (Γ, f) ∈ p.functions) (hname : f.name = "main") (hvoid : f.ret = .void)
    (hload : load (Line.code ls) maze settings = .ok (m, s₀)) {v : Option Value}
    (hend : m.Ends u (.ok (v, t))) (harr : p.Arrives m b F j s₀ u) : u.stack.items.length = j := by
  have hparams : f.params = [] := by
    by_contra hparams
    have hfails := hp.fails_of_params hf hname hparams hload
    cases harr with
    | here => cases hend.det (.fail hfails)
    | step _ hst _ => exact hst.not_ends (.fail hfails)
  obtain ⟨agent, -, hentry, -, hstack, hframes, -⟩ := load_eq_ok hload
  have hs₀ : s₀.At s₀.ip ([].reverse ++ []) .empty s₀.toWorld :=
    ⟨rfl, by rw [hstack]; rfl, hframes, rfl⟩
  have hcalls (n : Nat) := hgov.calls (n + 1) n (Nat.lt_succ_self n) Γ f s₀.ip hf (hname ▸ hentry) 0 s₀ []
    [] .empty _ hs₀ (by rw [hparams]; exact .nil) (Regime.lax_stores Γ s₀.store).typed
  have hstays {i : Nat} {x y : State} (hret : Regime.lax.Returns p m f.ret (f.discards Γ = false) []
      .empty s₀.toWorld 0 i x) : ¬m.Step x y := by
    obtain ⟨v, hend, -⟩ := hret.ends
    exact fun hst => hst.not_ends hend
  obtain ⟨k, hrun⟩ := harr.runs (n := 1) (W := Regime.lax.watch p (State.Above .empty)) (fun _ => rfl)
    hstays
  cases hrun 0 (hcalls (1 + k)) with
  | step _ hst _ => exact absurd hend hst.not_ends
  | fault _ hf _ => cases hend.det (.fail hf)
  | done hret =>
    obtain ⟨b, vs, left, w, hu, -, hvs, hj, -⟩ := hret
    rw [hvoid] at hvs
    obtain rfl := List.forall₂_nil_right_iff.mp hvs
    rw [hu.items_eq, List.nil_append, List.append_nil]
    omega

/-- What a run gives that comes to an end. -/
theorem results (hsolid : p.Solid) (hg : g ∈ p.segments) (hname : g.function.name = "main")
    (hload : load (Line.code ls) maze settings = .ok (m, s₀)) (hsteps : m.Steps n s₀ u) {v : Option Value}
    (hend : m.Ends u (.ok (v, t))) : p.Results (Line.code ls) m g s₀ u v := by
  obtain ⟨hops, hs₀⟩ := sound_of_load hload
  obtain ⟨hgo, hframes, hret⟩ := hp.ends_in_main hload hsteps hend
  obtain ⟨agent, -, hentry, -⟩ := load_eq_ok hload
  have hip : s₀.ip = g.start + 1 := by
    rw [← hname, hp.entry?_eq hg] at hentry
    exact (Option.some.inj hentry).symm
  obtain ⟨hlo, hhi, hbefore⟩ := hp.inside hops hg hs₀ hip hgo
  have hgov := Regime.governs_of_load (R := Regime.lax) hp hsolid nofun nofun hload
  have hreturn (ho : m.ops[u.ip]? = some .ret) : (Line.code ls)[u.ip]? = some .ret := by
    rw [hops] at ho
    obtain ⟨i, hi, ho⟩ := Code.getElem?_link ho
    cases i with
    | ret => exact hi
    | _ => cases ho
  by_cases hvoid : g.function.ret = .void
  · rcases hret with ⟨ho, rfl⟩ | ⟨ho, rfl⟩
    · have hi := hreturn ho
      have hlast : u.ip + 1 < g.stop := by
        -- The last place of a function is its end.
        obtain ⟨n, n', body, -, -, hbody, hstop⟩ := hp.segments_stand g hg
        by_contra hlast
        have hfin := Line.code_at hbody.right
        rw [show g.bodyStart + body.length = u.ip by omega] at hfin
        cases hi.symm.trans hfin
      obtain ⟨x, hx, k, e, c, hpart, hstop, -, -, he⟩ := hp.exists_return hg hlo hlast hi
      have hstays (y : State) (hy : y.ip = u.ip) (hy' : y.frames = u.frames) (z : State) : ¬m.Step y z :=
        fun hst => hst.not_ends (.ret ⟨hy, rfl, hy'.trans hframes, rfl⟩ ho)
      obtain ⟨j, harr⟩ := hsteps.exists_arrives hstays
      rw [hgo.frames_eq] at harr
      rw [hvoid] at he
      exact .left hvoid hx hpart hstop he.typeOf_void harr
        (hp.length_items hgov (Program.mem_functionsFrom_of_mem_segmentsFrom hg) hname hvoid hload hend
          harr)
    · rw [hops] at ho
      obtain ⟨i, hi, ho⟩ := Code.getElem?_link ho
      refine .none hvoid ?_
      cases i with
      | retVoid => exact .inr hi
      | fin => exact .inl hi
      | _ => cases ho
  · obtain ⟨hi, -⟩ := hp.returnsAt hops hg hs₀ hip hgo hvoid (hret.imp And.left And.left)
    obtain ⟨x, hx, k, e, c, hpart, hstop, hu, hl, he⟩ := hp.exists_return hg hlo (hbefore hvoid) hi
    obtain ⟨s, j, hgo', hs, harr⟩ := hp.exists_start hops hg hs₀ hip hgo he hl hu hi
    have harr' : p.Arrives m (s.ip + c.length) s.frames j s u := by
      rw [hs, ← hu, hgo'.frames_eq]
      exact harr
    obtain ⟨vs, hvs, hitems⟩ := State.trades_zero.mp (he.trades hgov (hs ▸ hl) harr')
    rw [Ty.values_of_ne_void hvoid, List.length_singleton, Nat.add_comm] at hvs
    obtain ⟨x', left, rfl⟩ := List.exists_cons_of_length_eq_add_one hvs
    obtain rfl : v = some x' := by
      rcases hret with ⟨-, rfl⟩ | ⟨ho, -⟩
      · rw [Stack.top?, hitems]
        rfl
      · rw [hops] at ho
        obtain ⟨i, hi', ho⟩ := Code.getElem?_link ho
        obtain rfl := Option.some.inj (hi.symm.trans hi')
        cases ho
    exact .value hvoid hx hpart hstop hgo' hs harr hitems (Nat.succ.inj hvs)

end Program.Coded

namespace Source

variable {source : String}

/-- The result of a run is the value of the return statement of `main` that was carried out last, if
`main` has a value. Otherwise there is none, unless `main` returned a call without a value while values
were left unused. -/
theorem run_results (hprog : checked source = .ok p) (hc : compile source = .ok code) (maze : Maze)
    (settings : Settings) :
    ∃ ls, p.Coded ls ∧ code = Line.code ls ∧ (∀ x ∈ p.sites, x.Stands p ls) ∧
      ∀ o, code.run maze settings = .ok o → ∃ g ∈ p.segments, g.function.name = "main" ∧
        ∃ m s₀ n u t, load code maze settings = .ok (m, s₀) ∧ m.Steps n s₀ u ∧
          m.Ends u (.ok (o.result, t)) ∧ o = t.outcome o.result ∧ p.Results code m g s₀ u o.result := by
  obtain ⟨ls, hls, rfl⟩ := exists_coded hprog hc
  refine ⟨ls, hls, rfl, hls.stands, fun o ho => ?_⟩
  obtain ⟨m, u, v, t, ⟨s₀, n, hload, hsteps⟩, hend, rfl⟩ := Code.run_eq_ok ho
  obtain ⟨Γ, f, hf, hname⟩ := hls.exists_main hload
  obtain ⟨g, hg, -, rfl⟩ := Program.exists_mem_segmentsFrom 0 hf
  exact ⟨g, hg, hname, m, s₀, n, u, t, hload, hsteps, hend, rfl,
    hls.results (solid_of_checked hprog) hg hname hload hsteps hend⟩

theorem run_results_sample : ∃ p code o, checked sample = .ok p ∧ compile sample = .ok code ∧
    code.run .sample {} = .ok o ∧
    ∃ g ∈ p.segments, g.function.name = "main" ∧
      ∃ m s₀ u, p.Results code m g s₀ u o.result := by
  obtain ⟨p, code, hprog, hc, -⟩ := exists_sample
  have hrun : (compile sample).toOption.any fun code => (code.run .sample {}).toOption.isSome := by
    decide +kernel
  obtain ⟨code', hc', hrun⟩ := Except.any_toOption hrun
  obtain rfl := Except.ok.inj (hc.symm.trans hc')
  obtain ⟨o, ho⟩ := Except.isSome_toOption hrun
  obtain ⟨ls, -, -, -, hresults⟩ := run_results hprog hc .sample {}
  obtain ⟨g, hg, hname, m, s₀, n, u, t, -, -, -, -, h⟩ := hresults o ho
  exact ⟨p, code, o, hprog, hc, ho, g, hg, hname, m, s₀, u, h⟩

/-- In this text, `main` returns a call without a value, behind an expression that nothing uses. -/
def passing : String :=
  "func void main() { 1; return turn_left(); }"

/-- A `main` without a value may give a result. -/
theorem run_passing : ∃ p code f o, checked passing = .ok p ∧ compile passing = .ok code ∧
    .function f ∈ p ∧ f.name = "main" ∧ f.ret = .void ∧ code.run .sample {} = .ok o ∧
    o.result.map Value.text = some "1" := by
  obtain ⟨p, hp, h⟩ := Except.any_toOption (x := checked passing) (q := fun p =>
    ((p.filterMap Decl.function?).any fun f => f.name = "main" && f.ret = .void) &&
      (compile passing).toOption.any fun code =>
        (code.run .sample {}).toOption.any (·.result.map Value.text = some "1")) (by decide +kernel)
  obtain ⟨hmain, h⟩ := Bool.and_eq_true_iff.mp h
  obtain ⟨f, hf, hmain⟩ := List.any_eq_true.mp hmain
  obtain ⟨hname, hret⟩ := Bool.and_eq_true_iff.mp hmain
  obtain ⟨code, hc, h⟩ := Except.any_toOption h
  obtain ⟨o, ho, hresult⟩ := Except.any_toOption h
  exact ⟨p, code, f, o, hp, hc, Program.mem_filterMap_function?.mp hf, of_decide_eq_true hname,
    of_decide_eq_true hret, ho, of_decide_eq_true hresult⟩

end Source

end Labyrinth
