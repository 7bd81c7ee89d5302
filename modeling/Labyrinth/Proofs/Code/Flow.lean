import Labyrinth.Proofs.Code.Sites

/-!
# How control flows through the code of a program

`Code.Flows` goes from a place to the places at which an activation may go on, where a test that is the
literal `true` does not jump. The code of a statement keeps control between its ends, and lets it out
behind it only if the statement does not always return (`Stmt.Coded.confines`).
-/

namespace Labyrinth

/-- Whether an instruction only goes on behind it; a call does when it comes back. -/
def Instruction.passes : Instruction → Bool
  | .jump _ | .jumpIfFalse _ | .ret | .retVoid | .fin => false
  | _ => true

namespace Code

variable {code : Code} {a b : Nat} {i : Instruction}

/-- In one activation, control may go from the place `a` to the place `b`. -/
def Flows (code : Code) (a b : Nat) : Prop :=
  match code[a]? with
  | none | some .ret | some .retVoid | some .fin => False
  | some (.jump l) => code.labelAddress? l = some b
  | some (.jumpIfFalse l) =>
    b = a + 1 ∨ code.labelAddress? l = some b ∧ ∀ k, a = k + 1 → code[k]? ≠ some (.pushInt 1)
  | some _ => b = a + 1

theorem flows_iff_of_passes (hi : code[a]? = some i) (hpasses : i.passes) :
    code.Flows a b ↔ b = a + 1 := by
  unfold Flows
  rw [hi]
  cases i <;> first | exact Iff.rfl | cases hpasses

/-- Where a label stands that is found. -/
theorem getElem?_of_labelAddress? {name : String} (h : code.labelAddress? name = some a) :
    code[a]? = some (.label name) := by
  rw [labelAddress?_eq, List.findIdx?_eq_some_iff_getElem] at h
  obtain ⟨ha, hlabel, -⟩ := h
  rw [List.getElem?_eq_getElem ha]
  generalize code[a] = i at hlabel ⊢
  cases i <;> simp_all [Instruction.label?]

/-- What stands behind the place of a function. -/
theorem getElem?_of_entry? {name : String} (h : code.entry? name = some a) :
    ∃ k arity, a = k + 1 ∧ code[k]? = some (.func name arity) := by
  rw [entry?_eq, Option.map_eq_some_iff] at h
  obtain ⟨k, h, rfl⟩ := h
  rw [List.findIdx?_eq_some_iff_getElem] at h
  obtain ⟨hk, hhead, -⟩ := h
  refine ⟨k, ?_⟩
  rw [List.getElem?_eq_getElem hk]
  generalize code[k] = i at hhead ⊢
  cases i <;> simp_all [Instruction.head?]

/-- Control comes to a place from the one in front of it, or by a jump to a label. -/
theorem Flows.from (h : code.Flows a b) : b = a + 1 ∨ ∃ name, code[b]? = some (.label name) := by
  unfold Flows at h
  split at h
  · exact h.elim
  · exact h.elim
  · exact h.elim
  · exact h.elim
  · exact .inr ⟨_, getElem?_of_labelAddress? h⟩
  · exact h.imp id fun h => ⟨_, getElem?_of_labelAddress? h.1⟩
  · exact .inl h

end Code

open Code

variable {p : Program} {Γ : Context} {ls c d rest : List Line} {a b e i : Nat} {r : Bool}
  {V W : Nat → Prop}

theorem StandsAt.getElem?_add {α : Type} {l m : List α} (h : StandsAt l a m) (hi : i < m.length) :
    l[a + i]? = m[i]? := by
  obtain ⟨before, after, rfl, rfl⟩ := h
  rw [List.append_assoc, List.getElem?_append_right (Nat.le_add_right ..), Nat.add_sub_cancel_left,
    List.getElem?_append_left hi]

namespace Line

/-- Lines that only go on behind them. -/
def Pass (c : List Line) : Prop := ∀ l ∈ c, l.instruction.passes

theorem pass_append : Pass (c ++ d) ↔ Pass c ∧ Pass d := List.forall_mem_append

theorem pass_single {l : Line} (h : l.instruction.passes) : Pass [l] := List.forall_mem_singleton.mpr h

theorem pass_widening (slot ty : Ty) : Pass (widening slot ty) := by
  unfold widening
  split
  · exact pass_single rfl
  · exact List.forall_mem_nil _

theorem getElem?_code (ls : List Line) (a : Nat) : (code ls)[a]? = ls[a]?.map instruction :=
  List.getElem?_map ..

theorem code_at {l : Line} (h : StandsAt ls a (l :: rest)) : (code ls)[a]? = some l.instruction := by
  rw [getElem?_code, h.getElem?, Option.map_some]

theorem Pass.flows (hd : Pass d) (hl : StandsAt ls a d) {q q' : Nat} (hq : a ≤ q)
    (hq' : q < a + d.length) (h : (code ls).Flows q q') : q' = q + 1 := by
  obtain ⟨k, rfl⟩ := Nat.exists_eq_add_of_le hq
  have hk : k < d.length := by omega
  have hat : (code ls)[a + k]? = some d[k].instruction := by
    rw [getElem?_code, hl.getElem?_add hk, List.getElem?_eq_getElem hk]
    rfl
  exact (flows_iff_of_passes hat (hd _ (List.getElem_mem hk))).mp h

/-- Control that comes to the place `a` stays at the places `V` between `a` and `b`, or it leaves them
at `b` if `r` does not say that it never does. -/
structure Confines (ls : List Line) (a b : Nat) (r : Bool) (V : Nat → Prop) : Prop where
  inside : ∀ q, V q → a ≤ q ∧ q < b
  start : V a ∨ a = b ∧ r = false
  flows : ∀ q q', V q → (code ls).Flows q q' → V q' ∨ q' = b ∧ r = false

namespace Confines

theorem pass (hl : StandsAt ls a c) (hc : Pass c) :
    Confines ls a (a + c.length) false fun q => a ≤ q ∧ q < a + c.length where
  inside := fun _ => id
  start := by
    by_cases h : c.length = 0
    · exact .inr ⟨by omega, rfl⟩
    · exact .inl ⟨Nat.le_refl a, by omega⟩
  flows := by
    intro q q' ⟨hq, hq'⟩ h
    obtain rfl := hc.flows hl hq hq' h
    by_cases hlt : q + 1 < a + c.length
    · exact .inl ⟨by omega, hlt⟩
    · exact .inr ⟨by omega, rfl⟩

theorem stop {l : Line} (hl : StandsAt ls a (l :: rest))
    (hstop : ∀ q, ¬(code ls).Flows a q) : Confines ls a (a + 1) true (· = a) where
  inside := by
    rintro q rfl
    exact ⟨Nat.le_refl q, Nat.lt_succ_self q⟩
  start := .inl rfl
  flows := by
    rintro q q' rfl h
    exact absurd h (hstop q')

theorem append (h : Confines ls a b false V) (h' : Confines ls b e r W) :
    Confines ls a e r fun q => V q ∨ W q where
  inside := by
    have hab : a ≤ b := by
      rcases h.start with hs | ⟨rfl, -⟩
      · exact Nat.le_of_lt (h.inside a hs).2
      · exact Nat.le_refl a
    have hbe : b ≤ e := by
      rcases h'.start with hs | ⟨rfl, -⟩
      · exact Nat.le_of_lt (h'.inside b hs).2
      · exact Nat.le_refl b
    rintro q (hq | hq)
    · exact ⟨(h.inside q hq).1, Nat.lt_of_lt_of_le (h.inside q hq).2 hbe⟩
    · exact ⟨Nat.le_trans hab (h'.inside q hq).1, (h'.inside q hq).2⟩
  start := by
    rcases h.start with hs | ⟨rfl, -⟩
    · exact .inl (.inl hs)
    · exact h'.start.imp .inr id
  flows := by
    rintro q q' (hq | hq) hflow
    · rcases h.flows q q' hq hflow with hq' | ⟨rfl, -⟩
      · exact .inl (.inl hq')
      · exact h'.start.imp .inr id
    · exact (h'.flows q q' hq hflow).imp .inr id

/-- Where nothing gets out, control comes in and stays. -/
theorem closed (h : Confines ls a b true V) : V a ∧ ∀ q q', V q → (code ls).Flows q q' → V q' :=
  ⟨h.start.resolve_right fun hr => Bool.noConfusion hr.2,
    fun q q' hq hflow => (h.flows q q' hq hflow).resolve_right fun hr => Bool.noConfusion hr.2⟩

/-- Where nothing gets out, nothing more is reached. -/
theorem cut (h : Confines ls a b true V) (hbe : b ≤ e) (r : Bool) : Confines ls a e r V where
  inside := fun q hq => ⟨(h.inside q hq).1, Nat.lt_of_lt_of_le (h.inside q hq).2 hbe⟩
  start := .inl h.closed.1
  flows := fun q q' hq hflow => .inl (h.closed.2 q q' hq hflow)

end Confines

end Line

open Line

/-! ### Expressions -/

mutual

theorem Expr.Coded.pass {e : Expr} {ty : Ty} {c : List Line} : e.Coded p Γ ty c → Pass c
  | .int => pass_single rfl
  | .float => pass_single rfl
  | .bool => pass_single rfl
  | .var _ _ => pass_single rfl
  | .binary hl hr _ => pass_append.mpr ⟨pass_append.mpr ⟨hl.pass, hr.pass⟩, pass_single rfl⟩
  | .unary (o := o) he _ => pass_append.mpr ⟨he.pass, pass_single (by cases o <;> rfl)⟩
  | .call _ _ _ ha => pass_append.mpr ⟨ha.pass, pass_single rfl⟩

theorem Expr.CodedArgs.pass {slots : List Slot} {args : List Expr} {tys : List Ty} {c : List Line} :
    Expr.CodedArgs p Γ slots args tys c → Pass c
  | .nil => List.forall_mem_nil _
  | .cons he _ _ hes =>
    pass_append.mpr ⟨pass_append.mpr ⟨he.pass, pass_widening _ _⟩, hes.pass⟩

end

theorem Expr.CodedInto.pass {e : Expr} {slot : Ty} (h : e.CodedInto p Γ slot c) : Pass c := by
  obtain ⟨he, -⟩ := h
  exact pass_append.mpr ⟨he.pass, pass_widening _ _⟩

/-! ### Statements -/

/-- The jump behind a test goes on behind it or at the label, but not there if the test is `true`. -/
theorem Expr.Coded.flows_test (hp : p.Coded ls) {test : Expr} {name : String}
    (h : test.Coded p Γ .bool c) (hl : StandsAt ls a (c ++ [.taking [.bool] (.jumpIfFalse name)]))
    (hlabel : StandsAt ls e (.plain (.label name) :: rest)) {q : Nat}
    (hflow : (Line.code ls).Flows (a + c.length) q) : q = a + c.length + 1 ∨ q = e ∧ test.isTrue = false := by
  have hjump := code_at hl.right
  unfold Flows at hflow
  rw [hjump] at hflow
  refine hflow.imp id fun ⟨haddress, htrue⟩ => ⟨?_, ?_⟩
  · rw [hp.labelAddress?_eq hlabel] at haddress
    exact (Option.some.inj haddress).symm
  · -- The literal stands in front of the jump.
    cases htest : test.isTrue with
    | false => rfl
    | true =>
      obtain ⟨k, rfl⟩ : ∃ k, test = .bool k true := by
        unfold isTrue at htest
        split at htest
        · exact ⟨_, rfl⟩
        · cases htest
      cases h
      exact absurd (code_at hl.left) (htrue a rfl)

theorem Line.confines_cond (hp : p.Coded ls) {test : Expr} {name : String} (htest : test.Coded p Γ .bool c)
    (hl : StandsAt ls a (c ++ [.taking [.bool] (.jumpIfFalse name)] ++ d ++ [.plain (.label name)]))
    (hbody : Confines ls (a + c.length + 1) (a + c.length + 1 + d.length) r W) :
    ∃ V, Confines ls a (a + c.length + 1 + d.length + 1) false V := by
  have hend := hl.right
  simp only [List.length_append, List.length_singleton, ← Nat.add_assoc] at hend
  refine ⟨fun q => (a ≤ q ∧ q ≤ a + c.length) ∨ W q ∨ q = a + c.length + 1 + d.length, ?_, ?_, ?_⟩
  · rintro q (hq | hq | rfl)
    · omega
    · have := hbody.inside q hq
      omega
    · omega
  · exact .inl (.inl ⟨Nat.le_refl a, Nat.le_add_right ..⟩)
  · rintro q q' (⟨hq, hq'⟩ | hq | rfl) hflow
    · rcases Nat.lt_or_eq_of_le hq' with hlt | rfl
      · obtain rfl := htest.pass.flows hl.left.left.left hq hlt hflow
        exact .inl (.inl ⟨by omega, hlt⟩)
      · rcases htest.flows_test hp hl.left.left hend hflow with rfl | ⟨rfl, -⟩
        · rcases hbody.start with hs | ⟨heq, -⟩
          · exact .inl (.inr (.inl hs))
          · exact .inl (.inr (.inr heq))
        · exact .inl (.inr (.inr rfl))
    · rcases hbody.flows q q' hq hflow with hq' | ⟨rfl, -⟩
      · exact .inl (.inr (.inl hq'))
      · exact .inl (.inr (.inr rfl))
    · exact .inr ⟨(flows_iff_of_passes (code_at hend) rfl).mp hflow, rfl⟩

theorem Line.confines_loop (hp : p.Coded ls) {test : Expr} {start stop : String}
    (htest : test.Coded p Γ .bool c)
    (hl : StandsAt ls a ([.plain (.label start)] ++ c ++ [.taking [.bool] (.jumpIfFalse stop)] ++ d ++
      [.plain (.jump start), .plain (.label stop)]))
    (hbody : Confines ls (a + 1 + c.length + 1) (a + 1 + c.length + 1 + d.length) r W) :
    ∃ V, Confines ls a (a + 1 + c.length + 1 + d.length + 1 + 1) (test.isTrue && r) V := by
  have hstart := hl.left.left.left.left
  have hjump := hl.right
  simp only [List.length_append, List.length_singleton, ← Nat.add_assoc] at hjump
  have hend := hjump.tail
  have htests : StandsAt ls (a + 1) (c ++ [.taking [.bool] (.jumpIfFalse stop)]) := by
    have htests := hl.left.left
    rw [List.append_assoc] at htests
    exact htests.right
  refine ⟨fun q => (a ≤ q ∧ q ≤ a + 1 + c.length) ∨ W q ∨
    (q = a + 1 + c.length + 1 + d.length ∧ r = false) ∨
    (q = a + 1 + c.length + 1 + d.length + 1 ∧ test.isTrue = false), ?_, ?_, ?_⟩
  · rintro q (hq | hq | ⟨rfl, -⟩ | ⟨rfl, -⟩)
    · omega
    · have := hbody.inside q hq
      omega
    · omega
    · omega
  · exact .inl (.inl ⟨Nat.le_refl a, by omega⟩)
  · rintro q q' (⟨hq, hq'⟩ | hq | ⟨rfl, hr⟩ | ⟨rfl, htrue⟩) hflow
    · rcases Nat.lt_or_eq_of_le hq' with hlt | rfl
      · -- The label in front of the test and the test itself go on one by one.
        have hpass : Pass ([.plain (.label start)] ++ c) := pass_append.mpr ⟨pass_single rfl, htest.pass⟩
        obtain rfl := hpass.flows hl.left.left.left hq (by simp; omega) hflow
        exact .inl (.inl ⟨by omega, hlt⟩)
      · rcases htest.flows_test hp htests hend hflow with rfl | ⟨rfl, htrue⟩
        · rcases hbody.start with hs | ⟨heq, hr⟩
          · exact .inl (.inr (.inl hs))
          · exact .inl (.inr (.inr (.inl ⟨heq, hr⟩)))
        · exact .inl (.inr (.inr (.inr ⟨rfl, htrue⟩)))
    · rcases hbody.flows q q' hq hflow with hq' | ⟨rfl, hr⟩
      · exact .inl (.inr (.inl hq'))
      · exact .inl (.inr (.inr (.inl ⟨rfl, hr⟩)))
    · unfold Flows at hflow
      rw [code_at hjump] at hflow
      change (code ls).labelAddress? start = some q' at hflow
      rw [hp.labelAddress?_eq hstart] at hflow
      obtain rfl := Option.some.inj hflow
      exact .inl (.inl ⟨Nat.le_refl a, by omega⟩)
    · exact .inr ⟨(flows_iff_of_passes (code_at hend) rfl).mp hflow, by rw [htrue]; rfl⟩

theorem Line.confines_ret {l : Line} (hl : StandsAt ls a (c ++ [l])) (hc : Pass c)
    (hstop : ∀ q, ¬(code ls).Flows (a + c.length) q) :
    ∃ V, Confines ls a (a + (c ++ [l]).length) true V := by
  rw [List.length_append, List.length_singleton, ← Nat.add_assoc]
  exact ⟨_, (Confines.pass hl.left hc).append (.stop hl.right hstop)⟩

mutual

/-- Control that comes to a statement stays in it, or gets out behind it if it may not return. -/
theorem Stmt.Coded.confines (hp : p.Coded ls) {Γ : Context} {n n' : Nat} {s : Stmt} {c : List Line}
    {a : Nat} : s.Coded p Γ n n' c → StandsAt ls a c →
      ∃ V, Confines ls a (a + c.length) s.returns V
  | .declare hi _ _, hl => ⟨_, .pass hl (pass_append.mpr ⟨hi.pass, pass_single rfl⟩)⟩
  | .assign _ _ hv, hl => ⟨_, .pass hl (pass_append.mpr ⟨hv.pass, pass_single rfl⟩)⟩
  | .cond ht hb, hl => by
    have hbody := hl.left.right
    simp only [List.length_append, List.length_singleton, ← Nat.add_assoc] at hbody ⊢
    obtain ⟨W, hW⟩ := hb.confines hp hbody
    exact confines_cond hp ht hl hW
  | .loop ht hb, hl => by
    have hbody := hl.left.right
    simp only [List.length_append, List.length_cons, List.length_nil, Nat.zero_add,
      ← Nat.add_assoc] at hbody ⊢
    obtain ⟨W, hW⟩ := hb.confines hp hbody
    rw [Stmt.returns_loop]
    exact confines_loop hp ht hl hW
  | .retVoid _, hl => confines_ret (c := []) hl (List.forall_mem_nil _) fun q hflow => by
    rw [Flows, List.length_nil, Nat.add_zero, code_at hl] at hflow
    exact hflow
  | .ret _ hv, hl => confines_ret hl hv.pass fun q hflow => by
    rw [Flows, code_at hl.right] at hflow
    exact hflow
  | .eval hv, hl => ⟨_, .pass hl (pass_append.mpr ⟨hv.pass, pass_single rfl⟩)⟩
  | .block hb, hl => hb.confines hp hl

theorem Stmt.CodedAll.confines (hp : p.Coded ls) {Γ : Context} {n n' : Nat} {ss : List Stmt}
    {c : List Line} {a : Nat} : Stmt.CodedAll p Γ n ss n' c → StandsAt ls a c →
      ∃ V, Confines ls a (a + c.length) (Stmt.anyReturns ss) V
  | .nil, hl => ⟨_, .pass hl (List.forall_mem_nil _)⟩
  | .cons (s := s) hs hss, hl => by
    obtain ⟨V, hV⟩ := hs.confines hp hl.left
    obtain ⟨W, hW⟩ := hss.confines hp hl.right
    rw [List.length_append, ← Nat.add_assoc, Stmt.anyReturns]
    cases hr : s.returns with
    | true =>
      rw [hr] at hV
      exact ⟨V, hV.cut (Nat.le_add_right ..) _⟩
    | false =>
      rw [hr] at hV
      exact ⟨_, hV.append hW⟩

end

/-! ### Functions -/

theorem Function.pass_params (f : Function) :
    Pass (f.params.reverse.map fun x => .taking [x.ty] (.store x.name)) :=
  List.forall_mem_map.mpr fun _ _ => rfl

/-- Control that comes to the entry of a function stays in it, and it does not come to the end of a
function that has a value. -/
theorem Segment.Stands.confines (hp : p.Coded ls) {g : Segment} (h : g.Stands p ls) :
    ∃ V, Confines ls (g.start + 1) g.stop true V ∧
      (g.function.ret ≠ .void → ∀ q, V q → q + 1 < g.stop) := by
  obtain ⟨n, n', body, hf, hl, hbody, hstop⟩ := h
  have hparams : StandsAt ls (g.start + 1) _ := hl.left.left.right
  have hV := Confines.pass hparams g.function.pass_params
  rw [List.length_map, List.length_reverse] at hV
  obtain ⟨W, hW⟩ := hf.body.confines hp hbody.left
  rw [Segment.bodyStart] at hbody hstop hW
  cases hr : Stmt.anyReturns g.function.body with
  | true =>
    rw [hr] at hW
    refine ⟨_, (hV.append hW).cut (by omega) true, fun _ q hq => ?_⟩
    have hlt := ((hV.append hW).inside q hq).2
    omega
  | false =>
    rw [hr] at hW
    have hfin := Confines.stop hbody.right fun q hflow => by
      rw [Flows, code_at hbody.right] at hflow
      exact hflow
    refine ⟨_, hstop ▸ (hV.append hW).append hfin, fun hv => ?_⟩
    rw [show Stmt.anyReturns g.function.body = true from hf.returns hv] at hr
    cases hr

/-! ### Where control gets out of a function -/

/-- What a line at a place says that may close an activation of a function of the type `ty`: a return with
a value belongs to a return statement among the sites `xs`, and one without stands in a function without. -/
structure Line.Closes (xs : List Site) (ty : Option Ty) (q : Nat) (l : Line) : Prop where
  valued : l.instruction = .ret →
    ∃ x ∈ xs, ∃ k e, x.part = .stmt (.ret k (some e)) ∧ x.stop = q + 1 ∧ x.context.ret = ty
  plain : l.instruction = .retVoid → ty = some .void
  inner : l.instruction ≠ .fin

namespace Line

variable {xs ys : List Site} {ty : Option Ty}

/-- The lines that stand at `a` say so. -/
def ClosesFrom (xs : List Site) (ty : Option Ty) (a : Nat) (ls : List Line) : Prop :=
  ∀ (i : Nat) (l : Line), ls[i]? = some l → l.Closes xs ty (a + i)

namespace ClosesFrom

theorem append (hc : ClosesFrom xs ty a c) (hd : ClosesFrom xs ty (a + c.length) d) :
    ClosesFrom xs ty a (c ++ d) := by
  intro i l hl
  by_cases hi : i < c.length
  · rw [List.getElem?_append_left hi] at hl
    exact hc i l hl
  · obtain ⟨k, rfl⟩ := Nat.exists_eq_add_of_le (Nat.le_of_not_lt hi)
    rw [List.getElem?_append_right (Nat.le_add_right ..), Nat.add_sub_cancel_left] at hl
    rw [← Nat.add_assoc]
    exact hd k l hl

theorem single {l : Line} (h : l.Closes xs ty a) : ClosesFrom xs ty a [l] := by
  intro i l' hl
  obtain ⟨hi, rfl⟩ := List.getElem?_eq_some_iff.mp hl
  obtain rfl : i = 0 := by simpa using hi
  exact h

theorem of_forall (h : ∀ l ∈ c, l.instruction ≠ .ret ∧ l.instruction ≠ .retVoid ∧ l.instruction ≠ .fin) :
    ClosesFrom xs ty a c := by
  intro i l hl
  obtain ⟨hret, hretVoid, hfin⟩ := h l (List.mem_of_getElem? hl)
  exact ⟨fun he => absurd he hret, fun he => absurd he hretVoid, hfin⟩

theorem pass (h : Pass c) : ClosesFrom xs ty a c := by
  refine of_forall fun l hl => ?_
  have hpasses := h l hl
  refine ⟨?_, ?_, ?_⟩ <;> intro he <;> rw [he] at hpasses <;> cases hpasses

theorem more (h : ClosesFrom xs ty a c) (hsub : xs ⊆ ys) : ClosesFrom ys ty a c := by
  intro i l hl
  refine ⟨fun he => ?_, (h i l hl).plain, (h i l hl).inner⟩
  obtain ⟨x, hx, hret⟩ := (h i l hl).valued he
  exact ⟨x, hsub hx, hret⟩

end ClosesFrom

end Line

theorem Stmt.sitesAll_subset_cons (Γ : Context) (a : Nat) (s : Stmt) (ss : List Stmt) :
    Stmt.sitesAll (s.after Γ) (a + (s.marks Γ).length) ss ⊆ Stmt.sitesAll Γ a (s :: ss) := by
  rw [Stmt.sitesAll]
  exact List.subset_append_right ..

mutual

theorem Stmt.Coded.closes {Γ : Context} {n n' : Nat} {s : Stmt} {c : List Line} (a : Nat) :
    s.Coded p Γ n n' c → ClosesFrom (s.partSites Γ a ++ [s.site Γ a]) Γ.ret a c
  | .declare hi _ _ => .pass (pass_append.mpr ⟨hi.pass, pass_single rfl⟩)
  | .assign _ _ hv => .pass (pass_append.mpr ⟨hv.pass, pass_single rfl⟩)
  | .cond (c := c) ht hb => by
    have hbody := hb.closes (a + c.length + 1)
    refine ((ClosesFrom.append (.pass ht.pass) (.of_forall ?_)).append ?_).append
      (.pass (pass_single rfl))
    · exact List.forall_mem_singleton.mpr ⟨nofun, nofun, nofun⟩
    · rw [List.length_append, List.length_singleton, ← Nat.add_assoc]
      refine hbody.more fun x hx => ?_
      simp only [Stmt.partSites, ht.marks, Line.length_marks, List.mem_append]
      exact .inl (.inr (.inl hx))
  | .loop (c := c) ht hb => by
    have hbody := hb.closes (a + 1 + c.length + 1)
    refine ((ClosesFrom.append (.pass ?_) (.of_forall ?_)).append ?_).append (.of_forall ?_)
    · exact pass_append.mpr ⟨pass_single rfl, ht.pass⟩
    · exact List.forall_mem_singleton.mpr ⟨nofun, nofun, nofun⟩
    · simp only [List.length_append, List.length_singleton, ← Nat.add_assoc]
      refine hbody.more fun x hx => ?_
      simp only [Stmt.partSites, ht.marks, Line.length_marks, List.mem_append]
      exact .inl (.inr (.inl hx))
    · exact List.forall_mem_cons.mpr ⟨⟨nofun, nofun, nofun⟩,
        List.forall_mem_singleton.mpr ⟨nofun, nofun, nofun⟩⟩
  | .retVoid hr => .single ⟨nofun, fun _ => hr, nofun⟩
  | .ret (n := n) (k := k) hr hv => by
    refine .append (.pass hv.pass) (.single ⟨fun _ => ?_, nofun, nofun⟩)
    refine ⟨_, List.mem_append_right _ (List.mem_singleton_self _), _, _, rfl, ?_, rfl⟩
    have hmarks := (Stmt.Coded.ret (n := n) (k := k) hr hv).marks
    rw [Stmt.site, hmarks, Line.length_marks, List.length_append]
    rfl
  | .eval hv => .pass (pass_append.mpr ⟨hv.pass, pass_single rfl⟩)
  | .block hb => by
    refine (hb.closes a).more fun x hx => ?_
    simp only [Stmt.partSites, List.mem_append]
    exact .inl (.inl hx)

theorem Stmt.CodedAll.closes {Γ : Context} {n n' : Nat} {ss : List Stmt} {c : List Line} (a : Nat) :
    Stmt.CodedAll p Γ n ss n' c → ClosesFrom (Stmt.sitesAll Γ a ss) Γ.ret a c
  | .nil => .pass (List.forall_mem_nil _)
  | .cons (s := s) (r := r) (c := c) hs hss => by
    have hrest := hss.closes (a + c.length)
    rw [Stmt.after_ret] at hrest
    refine ((hs.closes a).more ?_).append (hrest.more ?_)
    · rw [Stmt.sitesAll]
      exact List.subset_append_left ..
    · have hsub := Stmt.sitesAll_subset_cons Γ a s r
      rwa [hs.marks, Line.length_marks] at hsub

end

/-- In front of its end, a function is closed by its own return statements only. -/
theorem Segment.Stands.closes {g : Segment} (h : g.Stands p ls) {q : Nat} {l : Line}
    (hq : g.start < q) (hq' : q + 1 < g.stop) (hl : ls[q]? = some l) :
    l.Closes g.sites (some g.function.ret) q := by
  obtain ⟨n, n', body, hf, hlines, hbody, hstop⟩ := h
  have hparams : StandsAt ls (g.start + 1) _ := hlines.left.left.right
  have hstores : ClosesFrom g.sites (some g.function.ret) (g.start + 1) _ := .pass g.function.pass_params
  have hinner := hstores.append (d := body) ?_
  · obtain ⟨k, rfl⟩ := Nat.exists_eq_add_of_le (Nat.succ_le_of_lt hq)
    have hboth := hlines.left
    rw [List.append_assoc] at hboth
    have hboth : StandsAt ls (g.start + 1) _ := hboth.right
    refine hinner k l ?_
    rw [← hl, Nat.succ_eq_add_one, hboth.getElem?_add]
    rw [List.length_append, List.length_map, List.length_reverse]
    rw [Segment.bodyStart] at hstop
    omega
  · rw [List.length_map, List.length_reverse]
    exact (hf.body.closes g.bodyStart).more (List.subset_append_left ..)

end Labyrinth
