import Labyrinth.Proofs.Code.Coded
import Labyrinth.Proofs.Except

/-!
# Checked programs have lines

What the analyser accepts is in order in the sense of `Coded`, whatever the number of the first label.
The proofs follow the analyser; a context on the way knows only variables that the program declares
and functions that it may call (`Context.Within`).
-/

namespace Labyrinth

theorem Ty.mayReturn_eq (declared given : Ty) :
    Stmt.mayReturn declared given = declared.accepts given := by
  cases declared <;> cases given <;> rfl

theorem Ty.ne_void_of_accepts {slot ty : Ty} (h : slot.accepts ty) (hs : slot ≠ .void) :
    ty ≠ .void := by
  cases slot <;> cases ty <;> simp_all [Ty.accepts]

/-- Every variable and parameter has values. -/
def Program.Solid (p : Program) : Prop := ∀ x ∈ p.declared, x.2 ≠ .void

/-- Every parameter has values. -/
def Program.Receives (p : Program) : Prop := ∀ f, .function f ∈ p → ∀ x ∈ f.params, x.ty ≠ .void

/-- A context inside the program `p`. -/
structure Context.Within (p : Program) (Γ : Context) : Prop where
  scopes : ∀ scope ∈ Γ.inner :: Γ.outer, ∀ x ∈ scope, x ∈ p.declared
  functions : ∀ {name : String} {sig : Signature}, Γ.function? name = some sig → p.Callee name sig
  builtins : ∀ b ∈ Builtin.table, Γ.function? b.name ≠ none

variable {p : Program} {Γ : Context}

/-! ### Contexts -/

theorem mem_of_lookup {α : Type} {name : String} {a : α} :
    ∀ {l : List (String × α)}, l.lookup name = some a → (name, a) ∈ l
  | (n, b) :: l, h => by
    rw [List.lookup_cons] at h
    split at h
    · next hn =>
      obtain rfl := Option.some.inj h
      obtain rfl : name = n := by simpa using hn
      exact List.mem_cons_self ..
    · exact List.mem_cons_of_mem _ (mem_of_lookup h)

namespace Context.Within

theorem initial : Context.initial.Within p where
  scopes := by
    intro scope hs x hx
    obtain rfl : scope = [] := by simpa [Context.initial] using hs
    cases hx
  functions := by
    intro name sig h
    obtain ⟨b, hb, he⟩ := List.mem_map.mp (mem_of_lookup h)
    cases he
    exact .builtin hb
  builtins := by decide

theorem mem_declared (h : Γ.Within p) {name : String} {ty : Ty} (hn : Γ.lookup? name = some ty) :
    (name, ty) ∈ p.declared := by
  obtain ⟨scope, hs, hl⟩ := List.exists_of_findSome?_eq_some hn
  exact h.scopes scope hs _ (mem_of_lookup hl)

theorem push (h : Γ.Within p) : Γ.push.Within p where
  scopes := by
    intro scope hs x hx
    rcases List.mem_cons.mp hs with rfl | hs
    · cases hx
    · exact h.scopes scope hs x hx
  functions := h.functions
  builtins := h.builtins

theorem withVariable (h : Γ.Within p) {name : String} {ty : Ty} (hd : (name, ty) ∈ p.declared) :
    (Γ.withVariable name ty).Within p where
  scopes := by
    intro scope hs x hx
    rcases List.mem_cons.mp hs with rfl | hs
    · rcases List.mem_cons.mp hx with rfl | hx
      · exact hd
      · exact h.scopes _ (List.mem_cons_self ..) x hx
    · exact h.scopes scope (List.mem_cons_of_mem _ hs) x hx
  functions := h.functions
  builtins := h.builtins

theorem after (h : Γ.Within p) {s : Stmt} (hd : s.declared ⊆ p.declared) :
    (s.after Γ).Within p := by
  cases s with
  | declare loc ty name init => exact h.withVariable (hd (List.mem_singleton_self _))
  | _ => exact h

/-- A name that is free in a context is the name of no built-in function. -/
theorem find?_builtin (h : Γ.Within p) {name : String} (hn : Γ.function? name = none) :
    Builtin.find? name = none := by
  refine List.find?_eq_none.mpr fun b hb he => h.builtins b hb ?_
  rw [of_decide_eq_true he, hn]

theorem addFunction (h : Γ.Within p) {f : Function} (hm : (Γ, f) ∈ p.functions)
    (hn : Γ.function? f.name = none) : (Γ.addFunction f).Within p where
  scopes := h.scopes
  functions := by
    intro name sig hs
    rcases function?_addFunction_eq_some hs with ⟨rfl, rfl⟩ | hs
    · exact .function hm (h.find?_builtin hn)
    · exact h.functions hs
  builtins := by
    intro b hb hn'
    rw [Context.function?, Context.addFunction, List.lookup_cons] at hn'
    split at hn'
    · cases hn'
    · exact h.builtins b hb hn'

theorem inside (h : Γ.Within p) {f : Function} (hm : (Γ, f) ∈ p.functions)
    (hn : Γ.function? f.name = none) (hd : ∀ x ∈ f.params, (x.name, x.ty) ∈ p.declared) :
    (Γ.inside f).Within p where
  scopes := by
    intro scope hs x hx
    rcases List.mem_cons.mp hs with rfl | hs
    · obtain ⟨y, hy, rfl⟩ := List.mem_map.mp (List.mem_reverse.mp hx)
      exact hd y hy
    · exact h.scopes scope hs x hx
  functions := (h.addFunction hm hn).functions
  builtins := (h.addFunction hm hn).builtins

end Context.Within

theorem Context.declare_eq_ok {loc : Location} {name : String} {ty : Ty} {Γ' : Context}
    (h : Γ.declare loc name ty = .ok Γ') :
    Γ.inner.lookup name = none ∧ Γ' = Γ.withVariable name ty := by
  rw [Context.declare] at h
  split at h
  · cases h
  next hn =>
  cases h
  exact ⟨Option.not_isSome_iff_eq_none.mp hn, rfl⟩

theorem Context.resolve_eq_ok {loc : Location} {name : String} {ty : Ty}
    (h : Γ.resolve loc name = .ok ty) : Γ.lookup? name = some ty := by
  rw [Context.resolve] at h
  split at h
  · next hn => cases h; exact hn
  · cases h

theorem Context.declareParams_cons {x : Param} {xs : List Param} {Γ' : Context}
    (h : Γ.declareParams (x :: xs) = .ok Γ') :
    x.ty ≠ .void ∧ Γ.inner.lookup x.name = none ∧
      (Γ.withVariable x.name x.ty).declareParams xs = .ok Γ' := by
  rw [Context.declareParams] at h
  split at h
  · cases h
  next hv =>
  obtain ⟨Γ₁, h₁, h₂⟩ := Except.bind_eq_ok.mp h
  obtain ⟨hn, rfl⟩ := declare_eq_ok h₁
  exact ⟨hv, hn, h₂⟩

theorem Context.declareParams_eq {xs : List Param} {Γ Γ' : Context}
    (h : Γ.declareParams xs = .ok Γ') :
    Γ' = { Γ with inner := (xs.map fun x => (x.name, x.ty)).reverse ++ Γ.inner } ∧
      ∀ x ∈ xs, x.ty ≠ .void := by
  induction xs generalizing Γ with
  | nil => cases h; exact ⟨rfl, nofun⟩
  | cons y ys ih =>
    obtain ⟨hv, -, h⟩ := declareParams_cons h
    obtain ⟨rfl, hs⟩ := ih h
    refine ⟨by simp [withVariable], fun x hx => ?_⟩
    rcases List.mem_cons.mp hx with rfl | hx
    · exact hv
    · exact hs x hx

/-- Parameters have different names. -/
theorem Context.nodup_of_declareParams {xs : List Param} {Γ Γ' : Context}
    (h : Γ.declareParams xs = .ok Γ') :
    (xs.map (·.name)).Nodup ∧ ∀ x ∈ xs, Γ.inner.lookup x.name = none := by
  induction xs generalizing Γ with
  | nil => exact ⟨List.nodup_nil, nofun⟩
  | cons y ys ih =>
    obtain ⟨-, hy, h⟩ := declareParams_cons h
    obtain ⟨hnodup, hfree⟩ := ih h
    have hother {x : Param} (hx : x ∈ ys) : x.name ≠ y.name ∧ Γ.inner.lookup x.name = none := by
      have hx := hfree x hx
      rw [withVariable, List.lookup_cons] at hx
      have hne : x.name ≠ y.name := fun he => by simp [he] at hx
      exact ⟨hne, by simpa [beq_false_of_ne hne] using hx⟩
    refine ⟨List.nodup_cons.mpr ⟨fun hm => ?_, hnodup⟩, fun x hx => ?_⟩
    · obtain ⟨x, hx, he⟩ := List.mem_map.mp hm
      exact (hother hx).1 he
    · rcases List.mem_cons.mp hx with rfl | hx
      · exact hy
      · exact (hother hx).2

theorem Context.enter_eq {f : Function} {Γ' : Context} (h : Γ.enter f = .ok Γ') :
    Γ' = Γ.inside f := by
  rw [(declareParams_eq h).1, Context.inside]
  simp [Context.push]

/-! ### Expressions -/

namespace Expr

theorem typeOf_binary {loc : Location} {op : BinaryOp} {l r : Expr} {ty : Ty}
    (h : (binary loc op l r).typeOf Γ = .ok ty) :
    ∃ tl tr, l.typeOf Γ = .ok tl ∧ r.typeOf Γ = .ok tr ∧ op.typeOf tl tr = .ok ty := by
  obtain ⟨tl, hl, h⟩ := Except.bind_eq_ok.mp h
  obtain ⟨tr, hr, h⟩ := Except.bind_eq_ok.mp h
  exact ⟨tl, tr, hl, hr, Except.mapError_eq_ok.mp h⟩

theorem typeOf_unary {loc : Location} {op : UnaryOp} {e : Expr} {ty : Ty}
    (h : (unary loc op e).typeOf Γ = .ok ty) :
    ∃ te, e.typeOf Γ = .ok te ∧ op.typeOf te = .ok ty := by
  obtain ⟨te, he, h⟩ := Except.bind_eq_ok.mp h
  exact ⟨te, he, Except.mapError_eq_ok.mp h⟩

theorem typeOf_call {loc : Location} {name : String} {args : List Expr} {ty : Ty}
    (h : (call loc name args).typeOf Γ = .ok ty) :
    ∃ sig, Γ.function? name = some sig ∧ args.length = sig.params.length ∧
      checkArgs Γ name 1 sig.params args = .ok () ∧ ty = sig.ret := by
  rw [typeOf] at h
  split at h
  · cases h
  · next sig hs =>
    split at h
    · cases h
    · next hl =>
      obtain ⟨⟨⟩, ha, h⟩ := Except.bind_eq_ok.mp h
      cases h
      exact ⟨sig, hs, Decidable.not_not.mp hl, ha, rfl⟩

theorem checkArgs_cons {name : String} {i : Nat} {slot : Slot} {slots : List Slot} {e : Expr}
    {es : List Expr} (h : checkArgs Γ name i (slot :: slots) (e :: es) = .ok ()) :
    ∃ ty, e.typeOf Γ = .ok ty ∧ slot.admits ty ∧ checkArgs Γ name (i + 1) slots es = .ok () := by
  obtain ⟨ty, hty, h⟩ := Except.bind_eq_ok.mp h
  split at h
  · next ha => exact ⟨ty, hty, ha, h⟩
  · cases h

end Expr

theorem Program.mem_of_mem_functionsFrom {Δ : Context} {f : Function} :
    ∀ {Γ : Context} {ds : Program}, (Δ, f) ∈ ds.functionsFrom Γ → .function f ∈ ds
  | _, .stmt _ :: _, h => List.mem_cons_of_mem _ (mem_of_mem_functionsFrom h)
  | _, .function _ :: _, h => by
    rcases List.mem_cons.mp h with h | h
    · cases h; exact List.mem_cons_self ..
    · exact List.mem_cons_of_mem _ (mem_of_mem_functionsFrom h)

theorem Program.exists_mem_functionsFrom {f : Function} : ∀ {ds : Program} (Γ : Context),
    .function f ∈ ds → ∃ Δ, (Δ, f) ∈ ds.functionsFrom Γ
  | .stmt _ :: _, Γ, h => by
    rcases List.mem_cons.mp h with h | h
    · cases h
    · obtain ⟨Δ, h⟩ := exists_mem_functionsFrom Γ h
      exact ⟨Δ, h⟩
  | .function g :: _, Γ, h => by
    rcases List.mem_cons.mp h with h | h
    · cases h; exact ⟨Γ, List.mem_cons_self ..⟩
    · obtain ⟨Δ, h⟩ := exists_mem_functionsFrom (Γ.addFunction g) h
      exact ⟨Δ, List.mem_cons_of_mem _ h⟩

theorem Program.mem_declared_of_param {Δ : Context} {f : Function} (h : (Δ, f) ∈ p.functions)
    {x : Param} (hx : x ∈ f.params) : (x.name, x.ty) ∈ p.declared :=
  List.mem_flatMap.mpr ⟨.function f, mem_of_mem_functionsFrom h,
    List.mem_append_left _ (List.mem_map.mpr ⟨x, hx, rfl⟩)⟩

/-- An argument that fits has a value, and so does its slot. -/
theorem Program.Callee.into_ne_void (hp : p.Receives) {name : String} {sig : Signature}
    (h : p.Callee name sig) {slot : Slot} (hs : slot ∈ sig.params) {ty : Ty}
    (hadm : slot.admits ty) : (slot.into ty).accepts ty ∧ slot.into ty ≠ .void := by
  cases slot with
  | any =>
    have hv : ty ≠ .void := of_decide_eq_true hadm
    exact ⟨by simp [Slot.into, Ty.accepts], hv⟩
  | exact slot =>
    refine ⟨hadm, ?_⟩
    cases h with
    | builtin hb =>
      have h : ∀ b ∈ Builtin.table, .exact .void ∉ b.signature.params := by decide
      rintro rfl
      exact h _ hb hs
    | function hm _ =>
      obtain ⟨x, hx, he⟩ := List.mem_map.mp hs
      cases he
      exact hp _ (mem_of_mem_functionsFrom hm) x hx

mutual

theorem Expr.exists_coded (hp : p.Receives) (hΓ : Γ.Within p) :
    ∀ {e : Expr} {ty : Ty}, e.callees ⊆ p.callees → e.typeOf Γ = .ok ty → ∃ ls, e.Coded p Γ ty ls
  | .int _ _, _, _, h => by cases h; exact ⟨_, .int⟩
  | .float _ _ _, _, _, h => by cases h; exact ⟨_, .float⟩
  | .bool _ _, _, _, h => by cases h; exact ⟨_, .bool⟩
  | .var loc name, ty, _, h => by
    have hn := Context.resolve_eq_ok h
    exact ⟨_, .var hn (hΓ.mem_declared hn)⟩
  | .binary _ _ l r, _, hcs, h => by
    obtain ⟨tl, tr, hl, hr, hop⟩ := Expr.typeOf_binary h
    obtain ⟨ls, hl⟩ := Expr.exists_coded hp hΓ (List.append_subset.mp hcs).1 hl
    obtain ⟨rs, hr⟩ := Expr.exists_coded hp hΓ (List.append_subset.mp hcs).2 hr
    exact ⟨_, .binary hl hr hop⟩
  | .unary _ _ e, _, hcs, h => by
    obtain ⟨te, he, hop⟩ := Expr.typeOf_unary h
    obtain ⟨ls, he⟩ := Expr.exists_coded hp hΓ (e := e) hcs he
    exact ⟨_, .unary he hop⟩
  | .call _ name args, _, hcs, h => by
    obtain ⟨sig, hf, hl, ha, rfl⟩ := Expr.typeOf_call h
    have hc := hΓ.functions hf
    obtain ⟨hname, hcs⟩ := List.cons_subset.mp hcs
    obtain ⟨tys, ls, ha⟩ := Expr.exists_codedArgs hp hΓ hcs hl ha
      fun _ hs _ => hc.into_ne_void hp hs
    exact ⟨_, .call hf hc hname ha⟩

theorem Expr.exists_codedArgs (hp : p.Receives) (hΓ : Γ.Within p) :
    ∀ {args : List Expr} {slots : List Slot} {name : String} {i : Nat},
      Expr.calleesAll args ⊆ p.callees → args.length = slots.length →
      Expr.checkArgs Γ name i slots args = .ok () →
      (∀ slot ∈ slots, ∀ ty, slot.admits ty → (slot.into ty).accepts ty ∧ slot.into ty ≠ .void) →
      ∃ tys ls, Expr.CodedArgs p Γ slots args tys ls
  | [], [], _, _, _, _, _, _ => ⟨_, _, .nil⟩
  | e :: es, slot :: slots, name, i, hcs, hl, h, hs => by
    obtain ⟨ty, he, hadm, hes⟩ := Expr.checkArgs_cons h
    obtain ⟨hfit, hv⟩ := hs slot (List.mem_cons_self ..) ty hadm
    obtain ⟨hce, hces⟩ := List.append_subset.mp hcs
    obtain ⟨ls, he⟩ := Expr.exists_coded hp hΓ hce he
    obtain ⟨tys, rs, hes⟩ := Expr.exists_codedArgs hp hΓ hces (Nat.succ.inj hl) hes fun slot h =>
      hs slot (List.mem_cons_of_mem _ h)
    exact ⟨_, _, .cons he hfit hv hes⟩

end

theorem Expr.exists_codedInto (hp : p.Receives) (hΓ : Γ.Within p) {e : Expr} {slot ty : Ty}
    (hcs : e.callees ⊆ p.callees) (h : e.typeOf Γ = .ok ty) (hfit : slot.accepts ty) :
    ∃ ls, e.CodedInto p Γ slot ls := by
  obtain ⟨ls, h⟩ := exists_coded hp hΓ hcs h
  exact ⟨_, .mk h hfit⟩

/-! ### Statements -/

theorem Stmt.typeOf_checkCondition {construct : Keyword} {test : Expr}
    (h : Stmt.checkCondition Γ construct test = .ok ()) : test.typeOf Γ = .ok .bool := by
  obtain ⟨ty, ht, h⟩ := Except.bind_eq_ok.mp h
  split at h
  · next hb => rw [ht, hb]
  · cases h

mutual

theorem Stmt.exists_coded (hp : p.Receives) :
    ∀ {s : Stmt} {Γ Γ' : Context}, Γ.Within p → s.declared ⊆ p.declared →
      s.callees ⊆ p.callees → s.check Γ = .ok Γ' → Γ' = s.after Γ ∧ ∀ n, ∃ n' ls, s.Coded p Γ n n' ls
  | .declare _ ty name init, Γ, _, hΓ, hd, hcs, h => by
    obtain ⟨got, hi, h⟩ := Except.bind_eq_ok.mp h
    split at h
    · next hfit =>
      obtain ⟨hn, rfl⟩ := Context.declare_eq_ok h
      obtain ⟨ls, hi⟩ := Expr.exists_codedInto hp hΓ hcs hi hfit
      exact ⟨rfl, fun n => ⟨_, _, .declare hi hn (hd (List.mem_singleton_self _))⟩⟩
    · cases h
  | .assign _ name value, Γ, _, hΓ, hd, hcs, h => by
    obtain ⟨slot, hs, h⟩ := Except.bind_eq_ok.mp h
    obtain ⟨got, hv, h⟩ := Except.bind_eq_ok.mp h
    split at h
    · next hfit =>
      cases h
      have hn := Context.resolve_eq_ok hs
      obtain ⟨ls, hv⟩ := Expr.exists_codedInto hp hΓ hcs hv hfit
      exact ⟨rfl, fun n => ⟨_, _, .assign hn (hΓ.mem_declared hn) hv⟩⟩
    · cases h
  | .cond _ test body, Γ, _, hΓ, hd, hcs, h => by
    obtain ⟨⟨⟩, ht, h⟩ := Except.bind_eq_ok.mp h
    obtain ⟨⟨⟩, hb, h⟩ := Except.bind_eq_ok.mp h
    cases h
    obtain ⟨ls, ht⟩ := Expr.exists_coded hp hΓ (List.append_subset.mp hcs).1
      (Stmt.typeOf_checkCondition ht)
    refine ⟨rfl, fun n => ?_⟩
    obtain ⟨n', rs, hb⟩ := Stmt.exists_codedAll hp hΓ.push hd (List.append_subset.mp hcs).2 hb (n + 1)
    exact ⟨_, _, .cond ht hb⟩
  | .loop _ test body, Γ, _, hΓ, hd, hcs, h => by
    obtain ⟨⟨⟩, ht, h⟩ := Except.bind_eq_ok.mp h
    obtain ⟨⟨⟩, hb, h⟩ := Except.bind_eq_ok.mp h
    cases h
    obtain ⟨ls, ht⟩ := Expr.exists_coded hp hΓ (List.append_subset.mp hcs).1
      (Stmt.typeOf_checkCondition ht)
    refine ⟨rfl, fun n => ?_⟩
    obtain ⟨n', rs, hb⟩ := Stmt.exists_codedAll hp hΓ.push hd (List.append_subset.mp hcs).2 hb (n + 2)
    exact ⟨_, _, .loop ht hb⟩
  | .ret _ value, Γ, _, hΓ, hd, hcs, h => by
    rw [Stmt.check] at h
    split at h
    · cases h
    · next declared hr =>
      obtain ⟨got, hg, h⟩ := Except.bind_eq_ok.mp h
      split at h
      · next hfit =>
        cases h
        rw [Ty.mayReturn_eq] at hfit
        refine ⟨rfl, fun n => ?_⟩
        cases value with
        | none =>
          cases hg
          obtain rfl : declared = .void := by cases declared <;> simp_all [Ty.accepts]
          exact ⟨_, _, .retVoid hr⟩
        | some value =>
          obtain ⟨ls, hv⟩ := Expr.exists_codedInto hp hΓ hcs hg hfit
          exact ⟨_, _, .ret hr hv⟩
      · cases h
  | .eval value, Γ, _, hΓ, hd, hcs, h => by
    obtain ⟨⟨⟩, hv, h⟩ := Except.bind_eq_ok.mp h
    cases h
    cases ht : value.typeOf Γ with
    | error e => rw [ht] at hv; cases hv
    | ok ty =>
      obtain ⟨ls, ht⟩ := Expr.exists_coded hp hΓ hcs ht
      exact ⟨rfl, fun n => ⟨_, _, .eval ht⟩⟩
  | .block _ body, Γ, _, hΓ, hd, hcs, h => by
    obtain ⟨⟨⟩, hb, h⟩ := Except.bind_eq_ok.mp h
    cases h
    refine ⟨rfl, fun n => ?_⟩
    obtain ⟨n', rs, hb⟩ := Stmt.exists_codedAll hp hΓ.push hd hcs hb n
    exact ⟨_, _, .block hb⟩

theorem Stmt.exists_codedAll (hp : p.Receives) :
    ∀ {ss : List Stmt} {Γ : Context}, Γ.Within p → Stmt.declaredAll ss ⊆ p.declared →
      Stmt.calleesAll ss ⊆ p.callees → Stmt.checkAll Γ ss = .ok () →
      ∀ n, ∃ n' ls, Stmt.CodedAll p Γ n ss n' ls
  | [], _, _, _, _, _, n => ⟨_, _, .nil⟩
  | s :: ss, Γ, hΓ, hd, hcs, h, n => by
    obtain ⟨Γ', hs, hss⟩ := Except.bind_eq_ok.mp h
    obtain ⟨hds, hdss⟩ := List.append_subset.mp hd
    obtain ⟨hcs, hcss⟩ := List.append_subset.mp hcs
    obtain ⟨rfl, hcoded⟩ := Stmt.exists_coded hp hΓ hds hcs hs
    obtain ⟨n', ls, hs⟩ := hcoded n
    obtain ⟨n'', rs, hss⟩ := Stmt.exists_codedAll hp (hΓ.after hds) hdss hcss hss n'
    exact ⟨_, _, .cons hs hss⟩

end

/-! ### Functions and programs -/

theorem Function.exists_coded (hp : p.Receives) (hΓ : Γ.Within p) {f : Function} {Γ' : Context}
    (hm : (Γ, f) ∈ p.functions) (h : f.check Γ = .ok Γ') :
    Γ' = Γ.addFunction f ∧ Γ'.Within p ∧ ∀ n, ∃ n' body, f.Coded p Γ n n' body := by
  rw [Function.check] at h
  split at h
  · cases h
  next hn =>
  have hn := Option.not_isSome_iff_eq_none.mp hn
  obtain ⟨Γ₁, he, h⟩ := Except.bind_eq_ok.mp h
  obtain rfl := Context.enter_eq he
  obtain ⟨⟨⟩, hb, h⟩ := Except.bind_eq_ok.mp h
  split at h
  · cases h
  next hr =>
  cases h
  have hparams : ∀ x ∈ f.params, (x.name, x.ty) ∈ p.declared := fun x hx =>
    Program.mem_declared_of_param hm hx
  refine ⟨rfl, hΓ.addFunction hm hn, fun n => ?_⟩
  have hbody : Stmt.declaredAll f.body ⊆ p.declared := fun x hx =>
    List.mem_flatMap.mpr ⟨.function f, Program.mem_of_mem_functionsFrom hm,
      List.mem_append_right _ hx⟩
  have hcs : Stmt.calleesAll f.body ⊆ p.callees := fun x hx => List.mem_flatMap.mpr ⟨_, hm, hx⟩
  obtain ⟨n', body, hb⟩ := Stmt.exists_codedAll hp (hΓ.inside hm hn hparams) hbody hcs hb n
  refine ⟨n', body, hm, hn, hΓ.find?_builtin hn, he, hparams, hb, fun hv => ?_⟩
  simpa [hv] using hr

/-- Functions that are checked have lines, whatever stands behind them. -/
theorem Program.exists_codedFrom (hp : p.Receives) :
    ∀ {fs rest : Program} {Γ : Context} {n : Nat}, Γ.Within p →
      (∀ x ∈ (fs ++ rest).functionsFrom Γ, x ∈ p.functions) → (∀ d ∈ fs, d.function?.isSome) →
      (fs ++ rest).checkFrom Γ = .ok () → ∃ ls, CodedFrom p Γ n fs ls
  | [], _, _, _, _, _, _, _ => ⟨_, .nil⟩
  | .stmt _ :: _, _, _, _, _, _, hall, _ => nomatch hall _ (List.mem_cons_self ..)
  | .function f :: fs, rest, Γ, n, hΓ, hm, hall, h => by
    obtain ⟨Γ', hf, h⟩ := Except.bind_eq_ok.mp h
    obtain ⟨rfl, hΓ', hcoded⟩ := Function.exists_coded hp hΓ (hm _ (List.mem_cons_self ..)) hf
    obtain ⟨n', body, hf⟩ := hcoded n
    obtain ⟨ls, hls⟩ := exists_codedFrom hp hΓ' (fun x hx => hm x (List.mem_cons_of_mem _ hx))
      (fun d hd => hall d (List.mem_cons_of_mem _ hd)) h
    exact ⟨_, .cons hf hls⟩

theorem Function.params_of_check {Γ' : Context} {f : Function} (h : f.check Γ = .ok Γ') :
    ∀ x ∈ f.params, x.ty ≠ .void := by
  rw [check] at h
  split at h
  · cases h
  · obtain ⟨Γ₁, he, -⟩ := Except.bind_eq_ok.mp h
    exact (Context.declareParams_eq he).2

theorem Program.params_of_checkFrom {f : Function} : ∀ {ds : Program} {Γ : Context},
    ds.checkFrom Γ = .ok () → .function f ∈ ds → ∀ x ∈ f.params, x.ty ≠ .void
  | d :: ds, Γ, h, hf => by
    obtain ⟨Γ', hd, h⟩ := Except.bind_eq_ok.mp h
    rcases List.mem_cons.mp hf with rfl | hf
    · exact Function.params_of_check hd
    · exact params_of_checkFrom h hf

/-- The functions in front of the rest of a program that is checked have lines. -/
theorem Program.exists_coded_of_append {fs rest : Program} (hall : ∀ d ∈ fs, d.function?.isSome)
    (h : (fs ++ rest).check = .ok ()) : ∃ ls, CodedFrom (fs ++ rest) .initial 0 fs ls :=
  exists_codedFrom (fun _ hf => params_of_checkFrom h hf) Context.Within.initial (fun _ hx => hx) hall h

/-- A program of functions that is checked has lines. -/
theorem Program.exists_coded_of_check (hall : ∀ d ∈ p, d.function?.isSome) (h : p.check = .ok ()) :
    ∃ ls, p.Coded ls := by
  have happend : (p ++ []).check = .ok () := by rwa [List.append_nil]
  have hls := exists_coded_of_append hall happend
  rwa [List.append_nil] at hls

/-- What has code are functions. -/
theorem Program.isSome_function?_of_codeFrom : ∀ {ds : Program} {Γ : Context} {n : Nat} {c : Code},
    ds.codeFrom Γ n = .ok c → ∀ d ∈ ds, d.function?.isSome
  | [], _, _, _, _ => nofun
  | .function f :: ds, Γ, n, c, h => by
    obtain ⟨c₁, -, h⟩ := Except.bind_eq_ok.mp h
    obtain ⟨c₂, h, -⟩ := Except.bind_eq_ok.mp h
    intro d hd
    rcases List.mem_cons.mp hd with rfl | hd
    · rfl
    · exact isSome_function?_of_codeFrom h d hd

/-- A program that is checked and has code has lines, and they are its code. -/
theorem Program.exists_coded {c : Code} (h : p.check = .ok ()) (hc : p.code = .ok c) :
    ∃ ls, p.Coded ls ∧ c = Line.code ls := by
  obtain ⟨ls, hls⟩ := exists_coded_of_check (isSome_function?_of_codeFrom hc) h
  exact ⟨ls, hls, Except.ok.inj (hc.symm.trans (Coded.code_eq hls))⟩

end Labyrinth
