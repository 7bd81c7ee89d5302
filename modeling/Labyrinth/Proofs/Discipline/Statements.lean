import Labyrinth.Proofs.Discipline.Expressions

/-!
# Statements keep to a regime

The code of a statement goes on behind it, which a statement that always returns does not, or it comes
to a return. A loop is followed by induction on the number of steps, since a step at least lies between
two tests.
-/

namespace Labyrinth

open Machine

namespace Regime

variable {R : Regime} {p : Program} {Γ Γ' : Context} {ls rest : List Line} {m : Machine}
  {n j j' j₁ a b lo hi : Nat} {s t : State} {left S : List Value} {F : Stack Nat} {w w₁ : World}
  {q q' : Prop}

/-- What a statement does: it goes on at `b`, but not if it always returns, or it comes to a return. -/
def Follows (R : Regime) (p : Program) (m : Machine) (Γ : Context) (q : Prop) (returns : Bool)
    (b : Nat) (S : List Value) (F : Stack Nat) (w : World) (j j' : Nat) (t : State) : Prop :=
  returns = false ∧ R.Passes p Γ q b S F w j j' t ∨ R.Returns p m (Γ.ret.getD .void) q S F w j j' t

theorem Passes.leave (hw : R.Stores p Γ w.store) (h : R.Passes p Γ' q b S F w j j' t) :
    R.Passes p Γ q b S F w j j' t := by
  obtain ⟨left, w', ht, -, hkeep, hj, hleft⟩ := h
  exact ⟨left, w', ht, hkeep.stores hw, hkeep, hj, hleft⟩

/-- What was left unused before stays below. -/
theorem Passes.under (hkeep : R.Keeps p w w₁) (hj : left.length + j = j₁)
    (hleft : R.typed → q → left = []) (hq : q → q') (h : R.Passes p Γ q' b (left ++ S) F w₁ j₁ j' t) :
    R.Passes p Γ q b S F w j j' t := by
  obtain ⟨left', w', ht, hstore, hkeep', hj', hleft'⟩ := h
  refine ⟨left' ++ left, w', by simpa using ht, hstore, hkeep.trans hkeep', ?_, fun ht hq' => ?_⟩
  · rw [List.length_append]; omega
  · rw [hleft' ht (hq hq'), hleft ht hq']
    rfl

theorem Returns.under {ty : Ty} (hkeep : R.Keeps p w w₁) (hj : left.length + j = j₁)
    (hleft : R.typed → q → left = []) (hq : q → q')
    (h : R.Returns p m ty q' (left ++ S) F w₁ j₁ j' t) : R.Returns p m ty q S F w j j' t := by
  obtain ⟨b, vs, left', w', ht, hkeep', hvs, hj', hleft', hmark, hop⟩ := h
  refine ⟨b, vs, left' ++ left, w', by simpa using ht, hkeep.trans hkeep', hvs, ?_, fun ht hq' => ?_,
    hmark, hop⟩
  · rw [List.length_append]; omega
  · rw [hleft' ht (hq hq'), hleft ht hq']
    rfl

theorem Returns.imp {ty : Ty} (hq : q → q') (h : R.Returns p m ty q' S F w j j' t) :
    R.Returns p m ty q S F w j j' t := by
  obtain ⟨b, vs, left, w', ht, hkeep, hvs, hj, hleft, hop⟩ := h
  exact ⟨b, vs, left, w', ht, hkeep, hvs, hj, fun ht hq' => hleft ht (hq hq'), hop⟩

theorem Stores.withVariable {name : String} {ty : Ty} {v : Value} (h : R.Stores p Γ w.store)
    (hkeep : R.Keeps p w (w.assign name v)) :
    R.Stores p (Γ.withVariable name ty) (w.assign name v).store where
  typed := hkeep.typed h.typed
  defined := by
    intro hd name' ty' hn
    by_cases he : name' = name
    · rw [he]; exact get?_assign_ne_none w name v
    · refine hkeep.defined name' (h.defined hd name' ty' ?_)
      have hinner : ((name, ty) :: Γ.inner).lookup name' = Γ.inner.lookup name' := by
        rw [List.lookup_cons, beq_false_of_ne he]
      simp only [Context.lookup?, Context.withVariable, List.findSome?_cons, hinner] at hn ⊢
      exact hn

theorem Follows.under {r r' : Bool} (hkeep : R.Keeps p w w₁) (hj : left.length + j = j₁)
    (hleft : R.typed → q → left = []) (hq : q → q') (hr : r' = false → r = false)
    (h : R.Follows p m Γ q' r' b (left ++ S) F w₁ j₁ j' t) : R.Follows p m Γ q r b S F w j j' t := by
  rcases h with ⟨hn, h⟩ | h
  · exact .inl ⟨hr hn, h.under hkeep hj hleft hq⟩
  · exact .inr (h.under hkeep hj hleft hq)

namespace Governs

/-- A label behind a statement is passed. -/
theorem runs_label (h : R.Governs p ls m) {name : String}
    (hl : StandsAt ls b (.plain (.label name) :: rest)) (hlo : lo ≤ b) (hhi : b < hi)
    (ht : R.Passes p Γ q b S F w j j' t) :
    Runs (R.watch p (State.Inside F lo hi)) m True (R.Passes p Γ q (b + 1) S F w j) n j' t := by
  obtain ⟨left, w', ht, hstore, hkeep, hj, hleft⟩ := ht
  obtain ⟨hop, hh, hcount⟩ := h.ready [] (State.Inside F lo hi) hl ht .nil hstore.typed
    (ht.inside hlo hhi)
  cases n with
  | zero => exact .out trivial
  | succ n =>
  refine .skip ht hop hh fun u hu => ?_
  rw [hcount]
  exact .done ⟨left, w', hu, hstore, hkeep, hj, hleft⟩

/-- A value is stored in a variable. -/
theorem runs_store (h : R.Governs p ls m) {name : String} {ty : Ty} (hd : (name, ty) ∈ p.declared)
    (hl : StandsAt ls b (.taking [ty] (.store name) :: rest)) (hlo : lo ≤ b) (hhi : b < hi)
    (hstore : ∀ w' v, R.Stores p Γ w'.store → R.Keeps p w' (w'.assign name v) →
      R.Stores p Γ' (w'.assign name v).store)
    (hw : R.Stores p Γ w.store) (hs : R.Leaves p ty b S F w j j' t) :
    Runs (R.watch p (State.Inside F lo hi)) m True (R.Passes p Γ' q (b + 1) S F w j) n j' t := by
  obtain ⟨vs, left, w', ht, hkeep, hvs, hj, hleft⟩ := hs
  obtain ⟨v, rfl, hv⟩ := single (h.solid _ hd) hvs
  obtain ⟨hop, hh, hcount⟩ := h.ready [v] (State.Inside F lo hi) (S := left ++ S) hl
    (by simpa using ht) (.cons hv .nil) (hkeep.typed hw.typed) (ht.inside hlo hhi)
  cases n with
  | zero => exact .out trivial
  | succ n =>
  refine .store (v := v) (S := left ++ S) ht hop hh fun u hu => ?_
  rw [hcount]
  have hassign := h.keeps_assign (w := w') hd hv
  exact .done ⟨left, w'.assign name v, hu, hstore w' v (hkeep.stores hw) hassign,
    hkeep.trans hassign, hj, fun ht _ => hleft ht⟩

/-- A condition, and the jump behind it. -/
theorem runs_jumpIfFalse (h : R.Governs p ls m) {test : Expr} {c : List Line} {name : String}
    {target : Nat} (htest : test.Coded p Γ .bool c) (hcalls : R.Calls p ls m n)
    (hl : StandsAt ls a (c ++ [.taking [.bool] (.jumpIfFalse name)]))
    (htarget : (Line.code ls).labelAddress? name = some target) (hlo : lo ≤ a)
    (hhi : a + c.length < hi) (hs : s.At a S F w) (hw : R.Stores p Γ w.store) :
    Runs (R.watch p (State.Inside F lo hi)) m True
      (fun j' t => ∃ (v : Value) (left : List Value) (w' : World),
        t.At (if v.truthy then a + c.length + 1 else target) (left ++ S) F w' ∧
        R.Keeps p w w' ∧ left.length + j = j' ∧ (R.typed → left = []) ∧ (test.isTrue → v.truthy))
      n j s := by
  refine (htest.runs_test h hcalls hl.left hlo (Nat.le_of_lt hhi) hs hw).bind fun k hk j₁ t ht => ?_
  obtain ⟨v, left, w', ht, hkeep, hv, hj, hleft, htrue⟩ := ht
  obtain ⟨hop, hh, hcount⟩ := h.ready [v] (State.Inside F lo hi) hl.right ht (.cons hv .nil)
    (hkeep.typed hw.typed) (ht.inside (by omega) hhi)
  rw [Op.ofInstruction, htarget] at hop
  cases k with
  | zero => exact .out trivial
  | succ k =>
  refine .jumpIfFalse (v := v) (S := left ++ S) ht hop hh fun u hu => ?_
  rw [hcount]
  exact .done ⟨v, left, w', hu, hkeep, hj, hleft, htrue⟩

/-- What the statements of a block do, wherever the block starts within `n` steps. -/
def BodyRuns (R : Regime) (p : Program) (m : Machine) (Γ : Context) (q : Prop) (r : Bool)
    (F : Stack Nat) (lo hi a b n : Nat) : Prop :=
  ∀ k ≤ n, ∀ (j : Nat) (t : State) (S : List Value) (w : World), t.At a S F w → R.Stores p Γ w.store →
    Runs (R.watch p (State.Inside F lo hi)) m True (R.Follows p m Γ q r b S F w j) k j t

theorem runs_cond (h : R.Governs p ls m) {test : Expr} {c d : List Line} {name : String} {r : Bool}
    (htest : test.Coded p Γ .bool c) (hcalls : R.Calls p ls m n)
    (hl : StandsAt ls a (c ++ [.taking [.bool] (.jumpIfFalse name)] ++ d ++ [.plain (.label name)]))
    (hlo : lo ≤ a) (hhi : a + c.length + 1 + d.length < hi)
    (hbody : BodyRuns R p m Γ.push q r F lo hi (a + c.length + 1) (a + c.length + 1 + d.length) n)
    (ht : t.At a S F w) (hw : R.Stores p Γ w.store) :
    Runs (R.watch p (State.Inside F lo hi)) m True
      (R.Follows p m Γ q false (a + c.length + 1 + d.length + 1) S F w j) n j t := by
  have hend := hl.right
  simp only [List.length_append, List.length_singleton, ← Nat.add_assoc] at hend
  have htarget := h.labelAddress?_eq hend
  refine (h.runs_jumpIfFalse htest hcalls hl.left.left htarget hlo (by omega) ht hw).bind
    fun i hik j₁ u hu => ?_
  obtain ⟨v, left, w₁, hu, hkeep, hj, hleft, -⟩ := hu
  have hw₁ := hkeep.stores hw
  cases hv : v.truthy with
  | false =>
    rw [hv] at hu
    have hpass : R.Passes p Γ q (a + c.length + 1 + d.length) (left ++ S) F w₁ j₁ j₁ u :=
      ⟨[], w₁, hu, hw₁, .refl w₁, by simp, fun _ _ => rfl⟩
    refine (h.runs_label hend (by omega) hhi hpass).imp fun _ _ hpass => .inl ⟨rfl, ?_⟩
    exact hpass.under hkeep hj (fun ht _ => hleft ht) id
  | true =>
    rw [hv] at hu
    refine (hbody i hik j₁ u _ w₁ hu hw₁.push).bind fun i' hik' j₂ u' hu' => ?_
    rcases hu' with ⟨-, hpass⟩ | hret
    · refine (h.runs_label hend (by omega) hhi (hpass.leave hw₁)).imp fun _ _ hpass => .inl ⟨rfl, ?_⟩
      exact hpass.under hkeep hj (fun ht _ => hleft ht) id
    · exact .done (.inr (hret.under hkeep hj (fun ht _ => hleft ht) id))

/-- A loop goes round in fewer steps each time. -/
theorem runs_loop (h : R.Governs p ls m) {test : Expr} {c d : List Line} {start stop : String}
    {r : Bool} (htest : test.Coded p Γ .bool c)
    (hl : StandsAt ls a ([.plain (.label start)] ++ c ++ [.taking [.bool] (.jumpIfFalse stop)] ++ d ++
      [.plain (.jump start), .plain (.label stop)]))
    (hlo : lo ≤ a) (hhi : a + 1 + c.length + 1 + d.length + 1 < hi) (hcalls : R.Calls p ls m n)
    (hbody : BodyRuns R p m Γ.push q r F lo hi (a + 1 + c.length + 1)
      (a + 1 + c.length + 1 + d.length) n)
    (ht : t.At a S F w) (hw : R.Stores p Γ w.store) :
    Runs (R.watch p (State.Inside F lo hi)) m True
      (R.Follows p m Γ q (test.isTrue && r) (a + 1 + c.length + 1 + d.length + 1 + 1) S F w j)
      n j t := by
  have hstart := hl.left.left.left.left
  have hjump := hl.right
  simp only [List.length_append, List.length_singleton, ← Nat.add_assoc] at hjump
  have hend := hjump.tail
  have htarget := h.labelAddress?_eq hend
  have htests : StandsAt ls (a + 1) (c ++ [.taking [.bool] (.jumpIfFalse stop)]) := by
    have htests := hl.left.left
    rw [List.append_assoc] at htests
    exact htests.right
  induction n using Nat.strongRecOn generalizing j t S w with
  | ind n ih =>
  obtain ⟨hop, hh, hcount⟩ := h.ready [] (State.Inside F lo hi) hstart ht .nil hw.typed
    (ht.inside hlo (by omega))
  cases n with
  | zero => exact .out trivial
  | succ n =>
  refine .skip ht hop hh fun t₁ ht₁ => ?_
  rw [hcount]
  refine (h.runs_jumpIfFalse htest (hcalls.mono (Nat.le_succ n)) htests htarget (by omega) (by omega)
    ht₁ hw).bind fun i hik j₁ u hu => ?_
  obtain ⟨v, left, w₁, hu, hkeep, hj, hleft, htrue⟩ := hu
  have hw₁ := hkeep.stores hw
  cases hv : v.truthy with
  | false =>
    rw [hv] at hu
    have hpass : R.Passes p Γ q (a + 1 + c.length + 1 + d.length + 1) (left ++ S) F w₁ j₁ j₁ u :=
      ⟨[], w₁, hu, hw₁, .refl w₁, by simp, fun _ _ => rfl⟩
    refine (h.runs_label hend (by omega) hhi hpass).imp fun _ _ hpass => .inl ⟨?_, ?_⟩
    · cases htest' : test.isTrue with
      | false => rfl
      | true => rw [htrue htest'] at hv; cases hv
    · exact hpass.under hkeep hj (fun ht _ => hleft ht) id
  | true =>
    rw [hv] at hu
    refine (hbody i (Nat.le_succ_of_le hik) j₁ u _ w₁ hu hw₁.push).bind fun i' hik' j₂ u' hu' => ?_
    rcases hu' with ⟨-, left', w₂, hu', -, hkeep', hj', hleft'⟩ | hret
    · have hw₂ := hkeep'.stores hw₁
      obtain ⟨hop, hh, hcount⟩ := h.ready [] (State.Inside F lo hi) hjump hu' .nil hw₂.typed
        (hu'.inside (by omega) (by omega))
      rw [Op.ofInstruction, h.labelAddress?_eq hstart] at hop
      cases i' with
      | zero => exact .out trivial
      | succ i' =>
      refine .jump hu' hop hh fun t₂ ht₂ => ?_
      rw [hcount]
      refine (ih i' (by omega) (hcalls.mono (by omega)) (fun k hk => hbody k (by omega)) ht₂
        hw₂).imp fun _ _ hagain => ?_
      have hagain := hagain.under hkeep' hj' hleft' id id
      exact hagain.under hkeep hj (fun ht _ => hleft ht) id id
    · exact .done (.inr (hret.under hkeep hj (fun ht _ => hleft ht) id))

end Governs

end Regime

open Regime

variable {R : Regime} {p : Program} {ls : List Line} {m : Machine}

mutual

theorem Stmt.Coded.runs (h : R.Governs p ls m) {Γ : Context} {k k' : Nat} {s : Stmt}
    {c : List Line} : s.Coded p Γ k k' c → ∀ {n j a lo hi : Nat} {t : State} {S : List Value}
      {F : Stack Nat} {w : World}, R.Calls p ls m n → StandsAt ls a c → lo ≤ a → a + c.length ≤ hi →
      t.At a S F w → R.Stores p Γ w.store →
      Runs (R.watch p (State.Inside F lo hi)) m True
        (R.Follows p m (s.after Γ) (s.discards Γ = false) s.returns (a + c.length) S F w j) n j t
  | .declare hi' _ hd, n, j, a, lo, hi, t, S, F, w, hcalls, hl, hlo, hhi, ht, hw => by
    simp only [List.length_append, List.length_singleton] at hhi
    refine (hi'.runs h hcalls hl.left hlo (by omega) ht hw).bind fun i hik j₁ u hu => ?_
    rw [List.length_append, ← Nat.add_assoc]
    exact (h.runs_store hd hl.right (by omega) (by omega) (fun _ _ hw hkeep => hw.withVariable hkeep)
      hw hu).imp fun _ _ hpass => .inl ⟨rfl, hpass⟩
  | .assign _ hd hv, n, j, a, lo, hi, t, S, F, w, hcalls, hl, hlo, hhi, ht, hw => by
    simp only [List.length_append, List.length_singleton] at hhi
    refine (hv.runs h hcalls hl.left hlo (by omega) ht hw).bind fun i hik j₁ u hu => ?_
    rw [List.length_append, ← Nat.add_assoc]
    exact (h.runs_store hd hl.right (by omega) (by omega) (fun _ _ hw hkeep => hkeep.stores hw)
      hw hu).imp fun _ _ hpass => .inl ⟨rfl, hpass⟩
  | .cond (c := c) (d := d) htest hbody, n, j, a, lo, hi, t, S, F, w, hcalls, hl, hlo, hhi, ht, hw => by
    have hbodyAt := hl.left.right
    simp only [List.length_append, List.length_singleton, ← Nat.add_assoc] at hbodyAt hhi ⊢
    exact h.runs_cond htest hcalls hl hlo (by omega) (fun _ hik _ _ _ _ hu hw =>
      hbody.runs h (hcalls.mono hik) hbodyAt (by omega) (by omega) hu hw) ht hw
  | .loop (c := c) (d := d) htest hbody, n, j, a, lo, hi, t, S, F, w, hcalls, hl, hlo, hhi, ht, hw => by
    have hbodyAt := hl.left.right
    simp only [List.length_append, List.length_cons, List.length_nil, Nat.zero_add,
      ← Nat.add_assoc] at hbodyAt hhi ⊢
    rw [Stmt.returns_loop]
    exact h.runs_loop htest hl hlo (by omega) hcalls (fun _ hik _ _ _ _ hu hw =>
      hbody.runs h (hcalls.mono hik) hbodyAt (by omega) (by omega) hu hw) ht hw
  | .retVoid hr, n, j, a, lo, hi, t, S, F, w, hcalls, hl, hlo, hhi, ht, hw => by
    refine .done (.inr ?_)
    rw [Stmt.after_ret, hr]
    obtain ⟨hop, -, -⟩ := h.ready [] (State.Inside F lo hi) hl ht .nil hw.typed (ht.inside hlo hhi)
    exact ⟨a, [], [], w, ht, .refl w, .nil, by simp, fun _ _ => rfl, h.coded.mark_at hl,
      .inr ⟨hop, rfl⟩⟩
  | .ret hr hv, n, j, a, lo, hi, t, S, F, w, hcalls, hl, hlo, hhi, ht, hw => by
    simp only [List.length_append, List.length_singleton] at hhi
    refine (hv.runs h hcalls hl.left hlo (by omega) ht hw).imp fun j₁ u hu => .inr ?_
    obtain ⟨vs, left, w', hu, hkeep, hvs, hj, hleft⟩ := hu
    rw [Stmt.after_ret, hr]
    obtain ⟨hop, -⟩ := h.holds_at vs (State.Inside F lo hi) (S := left ++ S) hl.right (by simpa using hu)
      hvs (hkeep.typed hw.typed) (hu.inside (by omega) (by omega))
    exact ⟨_, vs, left, w', hu, hkeep, hvs, hj, fun ht _ => hleft ht, h.coded.mark_at hl.right,
      .inl hop⟩
  | .eval (t := ty) hv, n, j, a, lo, hi, t, S, F, w, hcalls, hl, hlo, hhi, ht, hw => by
    simp only [List.length_append, List.length_singleton] at hhi
    refine (hv.runs h hcalls hl.left hlo (by omega) ht hw).bind fun i hik j₁ u hu => ?_
    obtain ⟨vs, left, w', hu, hkeep, hvs, hj, hleft⟩ := hu
    obtain ⟨hop, hh⟩ := h.holds_at [] (State.Inside F lo hi) hl.right hu .nil (hkeep.typed hw.typed)
      (hu.inside (by omega) (by omega))
    cases i with
    | zero => exact .out trivial
    | succ i =>
    refine .skip hu hop hh fun t' ht' => ?_
    rw [h.counts_at hl.right hu.ip_eq, List.length_append, ← Nat.add_assoc]
    refine .done (.inl ⟨rfl, vs ++ left, w', ht', hkeep.stores hw, hkeep, ?_, fun ht hq => ?_⟩)
    · have hlen : vs.length = if decide (ty ≠ .void) then 1 else 0 := by
        rw [hvs.length_eq]
        cases ty <;> rfl
      rw [List.length_append, hlen]
      change _ = j₁ + if decide (ty ≠ .void) then 1 else 0
      omega
    · have hvoid : ty = .void := by simpa [Stmt.discards, hv.ty_eq] using hq
      subst hvoid
      cases hvs
      exact hleft ht
  | .block hb, n, j, a, lo, hi, t, S, F, w, hcalls, hl, hlo, hhi, ht, hw => by
    refine (hb.runs h hcalls hl hlo hhi ht hw.push).imp fun j' u hu => ?_
    rcases hu with ⟨hn, hpass⟩ | hret
    · exact .inl ⟨hn, hpass.leave hw⟩
    · exact .inr hret

theorem Stmt.CodedAll.runs (h : R.Governs p ls m) {Γ : Context} {k k' : Nat} {ss : List Stmt}
    {c : List Line} : Stmt.CodedAll p Γ k ss k' c → ∀ {n j a lo hi : Nat} {t : State} {S : List Value}
      {F : Stack Nat} {w : World}, R.Calls p ls m n → StandsAt ls a c → lo ≤ a → a + c.length ≤ hi →
      t.At a S F w → R.Stores p Γ w.store →
      Runs (R.watch p (State.Inside F lo hi)) m True
        (R.Follows p m Γ (Stmt.discardsAny Γ ss = false) (Stmt.anyReturns ss) (a + c.length) S F w j)
        n j t
  | .nil, n, j, a, lo, hi, t, S, F, w, _, _, _, _, ht, hw =>
    .done (.inl ⟨rfl, [], w, ht, hw, .refl w, by simp, fun _ _ => rfl⟩)
  | .cons (r := rest) (c := c) (d := d) hs hss, n, j, a, lo, hi, t, S, F, w, hcalls, hl, hlo, hhi, ht,
      hw => by
    rw [List.length_append] at hhi
    refine (hs.runs h hcalls hl.left hlo (by omega) ht hw).bind fun i hik j₁ u hu => ?_
    rcases hu with ⟨hn, left, w₁, hu, hw₁, hkeep, hj, hleft⟩ | hret
    · refine (hss.runs h (hcalls.mono hik) hl.right (by omega) (by omega) hu hw₁).imp
        fun j' u' hu' => ?_
      rw [List.length_append, ← Nat.add_assoc]
      have hleft (ht : R.typed) (hq : Stmt.discardsAny Γ (_ :: rest) = false) : left = [] :=
        hleft ht (Bool.or_eq_false_iff.mp hq).1
      rcases hu' with ⟨hr, hpass⟩ | hret
      · refine .inl ⟨by rw [Stmt.anyReturns, hn, hr]; rfl, ?_⟩
        exact (hpass.under hkeep hj hleft fun hq => (Bool.or_eq_false_iff.mp hq).2).leave hw
      · rw [Stmt.after_ret] at hret
        exact .inr (hret.under hkeep hj hleft fun hq => (Bool.or_eq_false_iff.mp hq).2)
    · rw [Stmt.after_ret] at hret
      exact .done (.inr (hret.imp fun hq => (Bool.or_eq_false_iff.mp hq).1))

end

end Labyrinth
