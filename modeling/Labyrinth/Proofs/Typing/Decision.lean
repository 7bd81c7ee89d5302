import Labyrinth.Proofs.Code.Elaboration
import Labyrinth.Proofs.Typing.Rules

/-!
# The analyser decides the rules of types

`Context.env` is what a context of the analyser makes visible. In each context the analyser gives an
expression the type that the rules give it in that environment (`Expr.typeOf_eq_ok_iff`), and it lets
pass the statements, functions and programs for which there is a rule (`Program.check_decides`).
-/

namespace Labyrinth

/-! ### Environments of contexts -/

theorem lookup_map {α β : Type} (key : α → String) (f : α → β) (l : List α) (name : String) :
    (l.map fun a => (key a, f a)).lookup name = (l.find? (key · = name)).map f := by
  induction l with
  | nil => rfl
  | cons a l ih =>
    rw [List.map_cons, List.find?_cons]
    by_cases h : key a = name
    · simp [h]
    · simp [h, List.lookup_cons, beq_false_of_ne (Ne.symm h), ih]

theorem lookup_cons_eq_update {α : Type} (name : String) (a : α) (l : List (String × α)) :
    (fun n => ((name, a) :: l).lookup n) = Function.update (fun n => l.lookup n) name (some a) := by
  funext n
  by_cases h : n = name
  · subst h
    simp
  · simp [List.lookup_cons, h, beq_false_of_ne h]

namespace Context

variable {Γ : Context} {name : String} {ty : Ty}

/-- What is visible in a context. -/
def env (Γ : Context) : Env where
  inner := fun name => Γ.inner.lookup name
  outer := fun name => Γ.outer.findSome? (·.lookup name)
  functions := fun name => Γ.function? name
  ret := Γ.ret

theorem env_slot? (Γ : Context) (name : String) : Γ.env.slot? name = Γ.lookup? name := by
  show (Γ.inner.lookup name).or _ = (Γ.inner :: Γ.outer).findSome? _
  rw [List.findSome?_cons]
  cases h : Γ.inner.lookup name
  · rw [Option.none_or]
    rfl
  · rfl

theorem env_push (Γ : Context) : Γ.push.env = Γ.env.nested := by
  ext1
  case outer =>
    funext name
    exact (env_slot? Γ name).symm
  all_goals rfl

theorem env_withVariable (Γ : Context) (name : String) (ty : Ty) :
    (Γ.withVariable name ty).env = Γ.env.withVariable name ty := by
  ext1
  case inner => exact lookup_cons_eq_update name ty Γ.inner
  all_goals rfl

theorem env_addFunction (Γ : Context) (f : Function) :
    (Γ.addFunction f).env = Γ.env.withFunction f := by
  ext1
  case functions => exact lookup_cons_eq_update f.name _ Γ.functions
  all_goals rfl

/-- Of parameters with different names it does not matter which is looked at first. -/
theorem lookup_reverse_params {xs : List Param} (h : (xs.map (·.name)).Nodup) (name : String) :
    (xs.map fun x => (x.name, x.ty)).reverse.lookup name =
      (xs.find? (·.name = name)).map (·.ty) := by
  induction xs with
  | nil => rfl
  | cons y ys ih =>
    obtain ⟨hy, hys⟩ := List.nodup_cons.mp h
    rw [List.map_cons, List.reverse_cons, List.lookup_append, ih hys, List.find?_cons]
    by_cases hname : y.name = name
    · have hnone : ys.find? (·.name = name) = none := by
        rw [List.find?_eq_none]
        intro x hx hn
        exact hy (List.mem_map.mpr ⟨x, hx, (of_decide_eq_true hn).trans hname.symm⟩)
      simp [hnone, hname]
    · simp [hname, List.lookup_cons, beq_false_of_ne (Ne.symm hname)]

theorem env_inside (Γ : Context) {f : Function} (h : (f.params.map (·.name)).Nodup) :
    (Γ.inside f).env = Γ.env.inside f := by
  have hnested : (Γ.addFunction f).push.env = (Γ.env.withFunction f).nested := by
    rw [env_push, env_addFunction]
  ext1
  case inner =>
    funext name
    exact lookup_reverse_params h name
  case outer =>
    show (Γ.addFunction f).push.env.outer = _
    rw [hnested]
    rfl
  case functions =>
    show (Γ.addFunction f).push.env.functions = _
    rw [hnested]
    rfl
  case ret => rfl

theorem env_initial : initial.env = .initial := by
  ext1
  case functions =>
    funext name
    exact lookup_map Builtin.name Builtin.signature Builtin.table name
  all_goals rfl

end Context

/-! ### Operators and slots -/

theorem Ty.accepts_iff {slot ty : Ty} : slot.accepts ty ↔ slot.Holds ty := by
  constructor
  · intro h
    cases slot <;> cases ty <;> first | exact .same | exact .widened | cases h
  · rintro (_ | _)
    · simp [accepts]
    · rfl

theorem Slot.admits_iff {slot : Slot} {ty : Ty} : slot.admits ty ↔ slot.Holds ty := by
  cases slot with
  | exact slot =>
    rw [admits, Ty.accepts_iff]
    constructor
    · exact .exact
    · rintro ⟨h⟩
      exact h
  | any =>
    rw [admits, decide_eq_true_iff]
    constructor
    · exact .any
    · rintro ⟨⟩
      assumption

theorem UnaryOp.typeOf_eq_ok_iff {op : UnaryOp} {t ty : Ty} :
    op.typeOf t = .ok ty ↔ op.Takes t ty := by
  constructor
  · intro h
    cases op <;> cases t <;> cases h
    · exact .neg rfl
    · exact .neg rfl
    · exact .not
  · rintro (h | _)
    · simp [typeOf, h]
    · rfl

theorem BinaryOp.typeOf_eq_ok_iff {op : BinaryOp} {l r ty : Ty} :
    op.typeOf l r = .ok ty ↔ op.Takes l r ty := by
  constructor
  · intro h
    cases op <;> cases l <;> cases r <;> cases h
    all_goals first
      | exact .ints (by decide)
      | exact .floats (by decide) rfl rfl (by decide)
      | exact .comparison (by decide) (by decide)
      | exact .connective (by decide)
  · rintro (hop | ⟨hop, hl, hr, hf⟩ | ⟨hop, hv⟩ | hop)
    · cases op <;> simp_all [typeOf, Ty.isNumeric]
    · have hl' : l ≠ .void := by rintro rfl; cases hl
      have hr' : r ≠ .void := by rintro rfl; cases hr
      cases op <;> simp_all [typeOf]
    · cases op <;> simp_all [typeOf]
    · cases op <;> simp_all [typeOf]

/-! ### Expressions -/

namespace Expr

variable {Γ : Context}

mutual

theorem hasType_of_typeOf : ∀ {e : Expr} {ty : Ty}, e.typeOf Γ = .ok ty → e.HasType Γ.env ty
  | .int _ _, _, h => by cases h; exact .int
  | .float _ _ _, _, h => by cases h; exact .float
  | .bool _ _, _, h => by cases h; exact .bool
  | .var _ name, _, h => by
    have hn := Context.resolve_eq_ok h
    exact .var ((Context.env_slot? Γ name).trans hn)
  | .binary _ _ left right, _, h => by
    obtain ⟨l, r, hl, hr, hop⟩ := typeOf_binary h
    exact .binary (hasType_of_typeOf hl) (hasType_of_typeOf hr) (BinaryOp.typeOf_eq_ok_iff.mp hop)
  | .unary _ _ operand, _, h => by
    obtain ⟨t, ht, hop⟩ := typeOf_unary h
    exact .unary (hasType_of_typeOf ht) (UnaryOp.typeOf_eq_ok_iff.mp hop)
  | .call _ _ args, _, h => by
    obtain ⟨sig, hf, hl, ha, rfl⟩ := typeOf_call h
    exact .call hf (supply_of_checkArgs hl ha)

theorem supply_of_checkArgs : ∀ {args : List Expr} {slots : List Slot} {name : String} {i : Nat},
    args.length = slots.length → checkArgs Γ name i slots args = .ok () → Supply Γ.env slots args
  | [], [], _, _, _, _ => .nil
  | arg :: args, slot :: slots, _, _, hl, h => by
    obtain ⟨ty, hty, hadm, h⟩ := checkArgs_cons h
    exact .cons (hasType_of_typeOf hty) (Slot.admits_iff.mp hadm)
      (supply_of_checkArgs (Nat.succ.inj hl) h)
  | [], _ :: _, _, _, hl, _ => nomatch hl
  | _ :: _, [], _, _, hl, _ => nomatch hl

end

mutual

theorem HasType.typeOf : ∀ {e : Expr} {ty : Ty}, e.HasType Γ.env ty → e.typeOf Γ = .ok ty
  | _, _, .int | _, _, .float | _, _, .bool => rfl
  | .var loc name, _, .var h => by
    rw [Context.env_slot?] at h
    show Γ.resolve loc name = _
    rw [Context.resolve, h]
  | _, _, .binary hl hr hop =>
    Except.bind_eq_ok.mpr ⟨_, hl.typeOf, Except.bind_eq_ok.mpr
      ⟨_, hr.typeOf, Except.mapError_eq_ok.mpr (BinaryOp.typeOf_eq_ok_iff.mpr hop)⟩⟩
  | _, _, .unary ht hop =>
    Except.bind_eq_ok.mpr ⟨_, ht.typeOf, Except.mapError_eq_ok.mpr (UnaryOp.typeOf_eq_ok_iff.mpr hop)⟩
  | .call loc name args, _, @HasType.call _ _ _ sig _ hf ha => by
    have hf : Γ.function? name = some sig := hf
    obtain ⟨hl, hargs⟩ := ha.checkArgs name 1
    rw [Expr.typeOf, hf]
    simp only [hl, ne_eq, not_true_eq_false, if_false]
    exact Except.bind_eq_ok.mpr ⟨(), hargs, rfl⟩

theorem Supply.checkArgs : ∀ {slots : List Slot} {args : List Expr}, Supply Γ.env slots args →
    ∀ (name : String) (i : Nat), args.length = slots.length ∧ checkArgs Γ name i slots args = .ok ()
  | _, _, .nil, _, _ => ⟨rfl, rfl⟩
  | _, _, .cons hty hadm h, name, i => by
    obtain ⟨hl, hargs⟩ := h.checkArgs name (i + 1)
    refine ⟨congrArg Nat.succ hl, Except.bind_eq_ok.mpr ⟨_, hty.typeOf, ?_⟩⟩
    rw [if_pos (Slot.admits_iff.mpr hadm)]
    exact hargs

end

/-- The analyser gives the types that the rules give. -/
theorem typeOf_eq_ok_iff {e : Expr} {ty : Ty} : e.typeOf Γ = .ok ty ↔ e.HasType Γ.env ty :=
  ⟨hasType_of_typeOf, HasType.typeOf⟩

end Expr

/-! ### Statements -/

namespace Stmt

variable {Γ : Context}

theorem checkCondition_eq_ok_iff {construct : Keyword} {test : Expr} :
    checkCondition Γ construct test = .ok () ↔ test.HasType Γ.env .bool := by
  constructor
  · intro h
    exact Expr.hasType_of_typeOf (typeOf_checkCondition h)
  · intro h
    exact Except.bind_eq_ok.mpr ⟨.bool, h.typeOf, rfl⟩

mutual

theorem proper_of_check : ∀ {s : Stmt} {Γ Γ' : Context}, s.check Γ = .ok Γ' →
    Γ' = s.after Γ ∧ s.Proper Γ.env Γ'.env
  | .declare _ ty name _, Γ, _, h => by
    obtain ⟨got, hi, h⟩ := Except.bind_eq_ok.mp h
    split at h
    · next hfit =>
      obtain ⟨hn, rfl⟩ := Context.declare_eq_ok h
      refine ⟨rfl, ?_⟩
      rw [Context.env_withVariable]
      exact .declare (Expr.hasType_of_typeOf hi) (Ty.accepts_iff.mp hfit) hn
    · cases h
  | .assign _ name _, Γ, _, h => by
    obtain ⟨slot, hs, h⟩ := Except.bind_eq_ok.mp h
    obtain ⟨got, hv, h⟩ := Except.bind_eq_ok.mp h
    split at h
    · next hfit =>
      cases h
      have hslot := (Context.env_slot? Γ name).trans (Context.resolve_eq_ok hs)
      exact ⟨rfl, .assign hslot (Expr.hasType_of_typeOf hv) (Ty.accepts_iff.mp hfit)⟩
    · cases h
  | .cond _ _ _, _, _, h => by
    obtain ⟨⟨⟩, ht, h⟩ := Except.bind_eq_ok.mp h
    obtain ⟨⟨⟩, hb, h⟩ := Except.bind_eq_ok.mp h
    cases h
    exact ⟨rfl, .cond (checkCondition_eq_ok_iff.mp ht) (Context.env_push _ ▸ properAll_of_check hb)⟩
  | .loop _ _ _, _, _, h => by
    obtain ⟨⟨⟩, ht, h⟩ := Except.bind_eq_ok.mp h
    obtain ⟨⟨⟩, hb, h⟩ := Except.bind_eq_ok.mp h
    cases h
    exact ⟨rfl, .loop (checkCondition_eq_ok_iff.mp ht) (Context.env_push _ ▸ properAll_of_check hb)⟩
  | .ret _ value, _, _, h => by
    rw [check] at h
    split at h
    · cases h
    next slot hr =>
    obtain ⟨got, hg, h⟩ := Except.bind_eq_ok.mp h
    split at h
    · next hfit =>
      cases h
      rw [Ty.mayReturn_eq, Ty.accepts_iff] at hfit
      cases value with
      | none =>
        cases hg
        cases hfit
        exact ⟨rfl, .leave hr⟩
      | some value => exact ⟨rfl, .ret hr (Expr.hasType_of_typeOf hg) hfit⟩
    · cases h
  | .eval value, Γ, _, h => by
    obtain ⟨⟨⟩, hv, h⟩ := Except.bind_eq_ok.mp h
    cases h
    cases ht : value.typeOf Γ with
    | error e => rw [ht] at hv; cases hv
    | ok ty => exact ⟨rfl, .eval (Expr.hasType_of_typeOf ht)⟩
  | .block _ _, _, _, h => by
    obtain ⟨⟨⟩, hb, h⟩ := Except.bind_eq_ok.mp h
    cases h
    exact ⟨rfl, .block (Context.env_push _ ▸ properAll_of_check hb)⟩

theorem properAll_of_check : ∀ {ss : List Stmt} {Γ : Context}, checkAll Γ ss = .ok () →
    ProperAll Γ.env ss
  | [], _, _ => .nil
  | _ :: _, _, h => by
    obtain ⟨Γ', hs, hss⟩ := Except.bind_eq_ok.mp h
    exact .cons (proper_of_check hs).2 (properAll_of_check hss)

end

mutual

theorem Proper.check {E E' : Env} : ∀ {s : Stmt}, s.Proper E E' → ∀ {Γ : Context}, Γ.env = E →
    s.check Γ = .ok (s.after Γ) ∧ (s.after Γ).env = E'
  | .declare loc ty name _, .declare hi hfit hn, Γ, hΓ => by
    subst hΓ
    refine ⟨Except.bind_eq_ok.mpr ⟨_, hi.typeOf, ?_⟩, Context.env_withVariable Γ name ty⟩
    rw [if_pos (Ty.accepts_iff.mpr hfit)]
    exact Context.declare_eq hn loc ty
  | .assign loc name value, .assign hslot hv hfit, Γ, hΓ => by
    subst hΓ
    have hslot : Γ.resolve loc name = .ok _ := Expr.HasType.typeOf (.var hslot)
    refine ⟨Except.bind_eq_ok.mpr ⟨_, hslot, Except.bind_eq_ok.mpr ⟨_, hv.typeOf, ?_⟩⟩, rfl⟩
    exact if_pos (Ty.accepts_iff.mpr hfit)
  | .cond _ _ _, .cond ht hb, Γ, hΓ => by
    subst hΓ
    exact ⟨Except.bind_eq_ok.mpr ⟨(), checkCondition_eq_ok_iff.mpr ht, Except.bind_eq_ok.mpr
      ⟨(), hb.check (Context.env_push Γ), rfl⟩⟩, rfl⟩
  | .loop _ _ _, .loop ht hb, Γ, hΓ => by
    subst hΓ
    exact ⟨Except.bind_eq_ok.mpr ⟨(), checkCondition_eq_ok_iff.mpr ht, Except.bind_eq_ok.mpr
      ⟨(), hb.check (Context.env_push Γ), rfl⟩⟩, rfl⟩
  | .ret _ none, .leave hr, Γ, hΓ => by
    subst hΓ
    have hr : Γ.ret = some .void := hr
    rw [Stmt.check, hr]
    exact ⟨rfl, rfl⟩
  | .ret _ (some value), .ret hr hv hfit, Γ, hΓ => by
    subst hΓ
    have hr : Γ.ret = some _ := hr
    rw [Stmt.check, hr]
    refine ⟨Except.bind_eq_ok.mpr ⟨_, hv.typeOf, ?_⟩, rfl⟩
    rw [Ty.mayReturn_eq]
    exact if_pos (Ty.accepts_iff.mpr hfit)
  | .eval value, .eval hv, Γ, hΓ => by
    subst hΓ
    refine ⟨Except.bind_eq_ok.mpr ⟨(), ?_, rfl⟩, rfl⟩
    rw [hv.typeOf]
    rfl
  | .block _ _, .block hb, Γ, hΓ => by
    subst hΓ
    exact ⟨Except.bind_eq_ok.mpr ⟨(), hb.check (Context.env_push Γ), rfl⟩, rfl⟩

theorem ProperAll.check {E : Env} : ∀ {ss : List Stmt}, ProperAll E ss → ∀ {Γ : Context},
    Γ.env = E → checkAll Γ ss = .ok ()
  | [], _, _, _ => rfl
  | s :: ss, .cons hs hss, Γ, hΓ => by
    obtain ⟨hs, hafter⟩ := hs.check hΓ
    exact Except.bind_eq_ok.mpr ⟨s.after Γ, hs, hss.check hafter⟩

end

/-- The analyser finds nothing in a statement for which there is a rule, and the environment behind
the statement is that of the context behind it. -/
theorem check_eq_ok_iff {s : Stmt} {Γ Γ' : Context} :
    s.check Γ = .ok Γ' ↔ Γ' = s.after Γ ∧ s.Proper Γ.env Γ'.env := by
  constructor
  · exact proper_of_check
  · rintro ⟨rfl, h⟩
    exact (h.check rfl).1

theorem checkAll_eq_ok_iff {ss : List Stmt} {Γ : Context} :
    checkAll Γ ss = .ok () ↔ ProperAll Γ.env ss :=
  ⟨properAll_of_check, fun h => h.check rfl⟩

/-! ### Statements that must return -/

mutual

theorem mustReturn_of_returns : ∀ {s : Stmt}, s.returns → s.MustReturn
  | .ret _ _, _ => .ret
  | .block _ _, h => by
    obtain ⟨s, hs, hm⟩ := mustReturn_of_anyReturns h
    exact .block hs hm
  | .loop _ test _, h => by
    rw [returns_loop, Bool.and_eq_true] at h
    obtain ⟨ht, h⟩ := h
    obtain ⟨place, rfl⟩ := Expr.isTrue_iff.mp ht
    obtain ⟨s, hs, hm⟩ := mustReturn_of_anyReturns h
    exact .loop hs hm
  | .declare .., h | .assign .., h | .cond .., h | .eval .., h => nomatch h

theorem mustReturn_of_anyReturns : ∀ {ss : List Stmt}, anyReturns ss → ∃ s ∈ ss, s.MustReturn
  | s :: ss, h => by
    rcases Bool.or_eq_true .. ▸ h with h | h
    · exact ⟨s, List.mem_cons_self .., mustReturn_of_returns h⟩
    · obtain ⟨s, hs, hm⟩ := mustReturn_of_anyReturns h
      exact ⟨s, List.mem_cons_of_mem _ hs, hm⟩

end

theorem anyReturns_of_mem {s : Stmt} (h : s.returns) : ∀ {ss : List Stmt}, s ∈ ss → anyReturns ss
  | s' :: ss, hs => by
    rw [anyReturns, Bool.or_eq_true]
    rcases List.mem_cons.mp hs with rfl | hs
    · exact .inl h
    · exact .inr (anyReturns_of_mem h hs)

theorem MustReturn.returns {s : Stmt} (h : s.MustReturn) : s.returns := by
  induction h with
  | ret => rfl
  | block hs _ ih => exact anyReturns_of_mem ih hs
  | loop hs _ ih => exact anyReturns_of_mem ih hs

theorem anyReturns_iff {ss : List Stmt} : anyReturns ss ↔ ∃ s ∈ ss, s.MustReturn := by
  constructor
  · exact mustReturn_of_anyReturns
  · rintro ⟨s, hs, h⟩
    exact anyReturns_of_mem h.returns hs

end Stmt

/-! ### Functions and programs -/

namespace Context

variable {Γ : Context}

/-- Parameters with values and different names that are new can be declared. -/
theorem exists_declareParams {xs : List Param} (hv : ∀ x ∈ xs, x.ty ≠ .void)
    (hd : (xs.map (·.name)).Nodup) (hn : ∀ x ∈ xs, Γ.inner.lookup x.name = none) :
    ∃ Γ', Γ.declareParams xs = .ok Γ' := by
  induction xs generalizing Γ with
  | nil => exact ⟨Γ, rfl⟩
  | cons y ys ih =>
    obtain ⟨hy, hys⟩ := List.nodup_cons.mp hd
    obtain ⟨Γ', h⟩ := ih (Γ := Γ.withVariable y.name y.ty)
      (fun x hx => hv x (List.mem_cons_of_mem _ hx)) hys fun x hx => by
        have hne : x.name ≠ y.name := fun he => hy (List.mem_map.mpr ⟨x, hx, he⟩)
        rw [withVariable, List.lookup_cons, beq_false_of_ne hne]
        exact hn x (List.mem_cons_of_mem _ hx)
    refine ⟨Γ', ?_⟩
    rw [declareParams, if_neg (hv y (List.mem_cons_self ..))]
    exact Except.bind_eq_ok.mpr ⟨_, declare_eq (hn y (List.mem_cons_self ..)) _ _, h⟩

theorem enter_eq_ok_iff {f : Function} : (∃ Γ', Γ.enter f = .ok Γ') ↔
    (∀ x ∈ f.params, x.ty ≠ .void) ∧ (f.params.map (·.name)).Nodup := by
  constructor
  · rintro ⟨Γ', h⟩
    exact ⟨(declareParams_eq h).2, (nodup_of_declareParams h).1⟩
  · rintro ⟨hv, hd⟩
    exact exists_declareParams hv hd fun _ _ => rfl

end Context

namespace Function

variable {Γ : Context}

theorem returns_iff {f : Function} : f.returns ↔ ∃ s ∈ f.body, s.MustReturn :=
  Stmt.anyReturns_iff

theorem proper_of_check {f : Function} {Γ' : Context} (h : f.check Γ = .ok Γ') :
    Γ' = Γ.addFunction f ∧ f.Proper Γ.env := by
  rw [check] at h
  split at h
  · cases h
  next hfresh =>
  obtain ⟨Γ₁, he, h⟩ := Except.bind_eq_ok.mp h
  obtain ⟨⟨⟩, hb, h⟩ := Except.bind_eq_ok.mp h
  split at h
  · cases h
  next hret =>
  cases h
  obtain ⟨hv, hd⟩ := Context.enter_eq_ok_iff.mp ⟨Γ₁, he⟩
  obtain rfl := Context.enter_eq he
  refine ⟨rfl, Option.not_isSome_iff_eq_none.mp hfresh, hv, hd, ?_, fun hne => ?_⟩
  · rw [← Context.env_inside Γ hd]
    exact Stmt.checkAll_eq_ok_iff.mp hb
  · refine returns_iff.mp ?_
    simpa [hne] using hret

theorem Proper.check {f : Function} (h : f.Proper Γ.env) : f.check Γ = .ok (Γ.addFunction f) := by
  obtain ⟨hfresh, hv, hd, hb, hret⟩ := h
  have hfresh : Γ.function? f.name = none := hfresh
  obtain ⟨Γ₁, he⟩ := Context.enter_eq_ok_iff.mpr ⟨hv, hd⟩
  obtain rfl := Context.enter_eq he
  rw [← Context.env_inside Γ hd] at hb
  rw [Function.check, hfresh, if_neg (by simp)]
  refine Except.bind_eq_ok.mpr ⟨_, he, Except.bind_eq_ok.mpr ⟨(), Stmt.checkAll_eq_ok_iff.mpr hb, ?_⟩⟩
  rw [if_neg]
  · rfl
  · rintro ⟨hne, hnot⟩
    rw [returns_iff.mpr (hret hne)] at hnot
    cases hnot

end Function

namespace Program

theorem proper_of_checkFrom : ∀ {ds : Program} {Γ : Context}, ds.checkFrom Γ = .ok () →
    ds.ProperFrom Γ.env
  | [], _, _ => .nil
  | .function f :: ds, Γ, h => by
    obtain ⟨Γ', hf, h⟩ := Except.bind_eq_ok.mp h
    obtain ⟨rfl, hproper⟩ := Function.proper_of_check hf
    refine .function hproper ?_
    rw [← Context.env_addFunction]
    exact proper_of_checkFrom h
  | .stmt s :: ds, Γ, h => by
    obtain ⟨Γ', hs, h⟩ := Except.bind_eq_ok.mp h
    exact .stmt (Stmt.proper_of_check hs).2 (proper_of_checkFrom h)

theorem ProperFrom.check {E : Env} {ds : Program} (h : ds.ProperFrom E) :
    ∀ {Γ : Context}, Γ.env = E → ds.checkFrom Γ = .ok () := by
  induction h with
  | nil => exact fun _ => rfl
  | function hf _ ih =>
    rintro Γ rfl
    exact Except.bind_eq_ok.mpr ⟨_, hf.check, ih (Context.env_addFunction Γ _)⟩
  | stmt hs _ ih =>
    rintro Γ rfl
    obtain ⟨hs, hafter⟩ := hs.check rfl
    exact Except.bind_eq_ok.mpr ⟨_, hs, ih hafter⟩

theorem check_eq_ok_iff {p : Program} : p.check = .ok () ↔ p.Proper := by
  rw [Proper, ← Context.env_initial]
  exact ⟨proper_of_checkFrom, fun h => h.check rfl⟩

instance (p : Program) : Decidable p.Proper :=
  match h : p.check with
  | .ok () => isTrue (check_eq_ok_iff.mp h)
  | .error _ => isFalse fun hp => nomatch h.symm.trans (check_eq_ok_iff.mpr hp)

/-- The analyser finds nothing in a program exactly if the rules of types hold of it, and else it
gives an error of types. -/
theorem check_decides (p : Program) :
    (p.check = .ok () ↔ p.Proper) ∧ (¬ p.Proper ↔ ∃ e : SemanticError, p.check = .error e) := by
  refine ⟨check_eq_ok_iff, ?_⟩
  rw [← check_eq_ok_iff]
  cases p.check with
  | ok u => simp
  | error e => simp

/-- A variable of a block is not visible behind it. -/
example : ¬ Proper [.stmt (.block .start [.declare .start .int "a" (.int .start 1)]),
    .stmt (.eval (.var .start "a"))] := by
  decide

end Program

end Labyrinth
