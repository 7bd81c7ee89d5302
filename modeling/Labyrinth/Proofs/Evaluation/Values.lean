import Labyrinth.Proofs.Evaluation.Basic
import Labyrinth.Proofs.Safety

/-!
# Evaluations that give values

In a program that is in order, an expression and a call give a value unless they are void, and statements
that always return do not go on. So an evaluation does not stop for want of a value.
-/

namespace Labyrinth

namespace Evaluation

variable {α β : Type} {x : Evaluation α} {w w' : World}

theorem bind_eq_ok {f : α → Evaluation β} {b : β} :
    (x >>= f) w = .ok (b, w') ↔ ∃ a w₁, x w = .ok (a, w₁) ∧ f a w₁ = .ok (b, w') := by
  constructor
  · intro h
    obtain ⟨⟨a, w₁⟩, hx, hf⟩ := Except.bind_eq_ok.mp h
    exact ⟨a, w₁, hx, hf⟩
  · rintro ⟨a, w₁, hx, hf⟩
    exact Except.bind_eq_ok.mpr ⟨(a, w₁), hx, hf⟩

theorem ofOption_eq_ok {stop : Stop} {o : Option α} {a : α} :
    ofOption stop o w = .ok (a, w') ↔ o = some a ∧ w = w' := by
  cases o with
  | none => exact ⟨nofun, nofun⟩
  | some b =>
    constructor
    · intro h; cases h; exact ⟨rfl, rfl⟩
    · rintro ⟨h, rfl⟩; cases h; rfl

theorem value_eq_ok {x : Evaluation (Option Value)} {v : Value} :
    x.value w = .ok (v, w') ↔ x w = .ok (some v, w') := by
  constructor
  · intro h
    obtain ⟨a, w₁, hx, h⟩ := bind_eq_ok.mp h
    obtain ⟨rfl, rfl⟩ := ofOption_eq_ok.mp h
    exact hx
  · intro h
    exact bind_eq_ok.mpr ⟨some v, w', h, rfl⟩

end Evaluation

open Evaluation

/-- Calls of functions that are not void give values. -/
def Calls.Valued (p : Program) (calls : Calls) : Prop :=
  ∀ name sig args w v w', p.Callee name sig → calls name args w = .ok (v, w') →
    v.toList.length = sig.ret.values.length

/-- Statements that always return do not go on, and a value is returned unless the type is void. -/
def Flow.Fits (ty : Ty) (returns : Bool) : Flow → Prop
  | next => returns = false
  | returned v => v.toList.length = ty.values.length

theorem Flow.Fits.of_next {ty : Ty} {r r' : Bool} {flow : Flow} (h : flow.Fits ty r)
    (hr : r = false → r' = false) : flow.Fits ty r' := by
  cases flow with
  | next => exact hr h
  | returned v => exact h

theorem Ty.length_values_of_accepts {slot ty : Ty} (h : slot.accepts ty) :
    slot.values.length = ty.values.length := by
  cases slot <;> cases ty <;> first | rfl | cases h

theorem Ty.length_values {ty : Ty} (h : ty ≠ .void) : ty.values.length = 1 := by
  rw [Ty.values_of_ne_void h]; rfl

variable {p : Program} {Γ : Context} {calls : Calls} {fuel : Nat} {w w' : World} {v : Option Value}

theorem Expr.Coded.length_eval (hsolid : p.Solid) {e : Expr} {ty : Ty} {c : List Line}
    (he : e.Coded p Γ ty c) (hc : calls.Valued p) (h : e.eval calls Γ w = .ok (v, w')) :
    v.toList.length = ty.values.length := by
  cases he with
  | int | float | bool => cases h; rfl
  | var hn hd =>
    obtain ⟨u, w₁, -, h⟩ := bind_eq_ok.mp h
    obtain ⟨x, w₂, -, h⟩ := bind_eq_ok.mp h
    cases h
    exact (Ty.length_values (hsolid _ hd)).symm
  | binary hl hr hop =>
    obtain ⟨a, w₁, -, h⟩ := bind_eq_ok.mp h
    obtain ⟨b, w₂, -, h⟩ := bind_eq_ok.mp h
    obtain ⟨x, w₃, -, h⟩ := bind_eq_ok.mp h
    cases h
    exact (Ty.length_values (BinaryOp.ne_void_of_typeOf hop)).symm
  | unary he hop =>
    obtain ⟨a, w₁, -, h⟩ := bind_eq_ok.mp h
    cases h
    exact (Ty.length_values (UnaryOp.ne_void_of_typeOf hop).2).symm
  | call hf hcallee hn ha =>
    obtain ⟨vs, w₁, -, h⟩ := bind_eq_ok.mp h
    exact hc _ _ _ _ _ _ hcallee h

/-- An expression that is not void has one value. -/
theorem Expr.Coded.length_eval_eq_one (hsolid : p.Solid) {e : Expr} {ty : Ty} {c : List Line}
    (he : e.Coded p Γ ty c) (hc : calls.Valued p) (hv : ty ≠ .void)
    (h : e.eval calls Γ w = .ok (v, w')) : v.toList.length = 1 := by
  rw [he.length_eval hsolid hc h, Ty.length_values hv]

theorem Expr.CodedArgs.length_evalArgs {slots : List Slot} {es : List Expr} {tys : List Ty}
    {c : List Line} : Expr.CodedArgs p Γ slots es tys c → ∀ {vs : List Value} {w w' : World},
      Expr.evalArgs calls Γ slots es w = .ok (vs, w') → vs.length = slots.length
  | .nil, vs, w, w', h => by cases h; rfl
  | .cons _ _ _ hes, vs, w, w', h => by
    obtain ⟨v, w₁, -, h⟩ := bind_eq_ok.mp h
    obtain ⟨us, w₂, hus, h⟩ := bind_eq_ok.mp h
    cases h
    rw [List.length_cons, List.length_cons, hes.length_evalArgs hus]

theorem Expr.CodedInto.length_evalInto (hsolid : p.Solid) {e : Expr} {slot : Ty} {c : List Line}
    (he : e.CodedInto p Γ slot c) (hc : calls.Valued p)
    (h : e.evalInto calls Γ slot w = .ok (v, w')) : v.toList.length = slot.values.length := by
  obtain ⟨he, hfit⟩ := he
  obtain ⟨x, w₁, hx, h⟩ := bind_eq_ok.mp h
  cases h
  rw [Ty.length_values_of_accepts hfit, ← he.length_eval hsolid hc hx]
  cases x <;> rfl

/-- A value that is stored is one value. -/
theorem Expr.CodedInto.length_evalInto_eq_one (hsolid : p.Solid) {e : Expr} {slot : Ty} {c : List Line}
    (he : e.CodedInto p Γ slot c) (hc : calls.Valued p) (hv : slot ≠ .void)
    (h : e.evalInto calls Γ slot w = .ok (v, w')) : v.toList.length = 1 := by
  rw [he.length_evalInto hsolid hc h, Ty.length_values hv]

theorem Evaluation.fits_repeatWhile {test : Evaluation Value} {body : Evaluation Flow} {ty : Ty}
    {t r : Bool}
    (htest : ∀ w v w', test w = .ok (v, w') → t = true → v.truthy)
    (hbody : ∀ w flow w', body w = .ok (flow, w') → flow.Fits ty r) :
    ∀ {n : Nat} {w w' : World} {flow : Flow}, repeatWhile test body n w = .ok (flow, w') →
      flow.Fits ty (t && r)
  | 0, _, _, _, h => by cases h
  | n + 1, w, w', flow, h => by
    obtain ⟨v, w₁, hv, h⟩ := bind_eq_ok.mp h
    split at h
    · obtain ⟨flow₁, w₂, hflow, h⟩ := bind_eq_ok.mp h
      cases flow₁ with
      | next => exact fits_repeatWhile htest hbody h
      | returned v => cases h; exact hbody _ _ _ hflow
    next hfalse =>
      cases h
      cases t with
      | false => rfl
      | true => exact absurd (htest _ _ _ hv rfl) hfalse

theorem Expr.truthy_of_isTrue {e : Expr} {v : Value} (h : e.isTrue)
    (hv : (e.eval calls Γ).value w = .ok (v, w')) : v.truthy := by
  unfold Expr.isTrue at h
  split at h
  · cases hv; rfl
  · cases h

mutual

/-- What a statement gives is what its kind of statement may give. -/
theorem Stmt.Coded.fits_run (hsolid : p.Solid) (hc : calls.Valued p) {Γ : Context} {n n' : Nat}
    {s : Stmt} {c : List Line} : s.Coded p Γ n n' c → ∀ {w w' : World} {flow : Flow},
      s.run calls fuel Γ w = .ok (flow, w') → flow.Fits (Γ.ret.getD .void) s.returns
  | .declare _ _ _, w, w', flow, h => by
    obtain ⟨v, w₁, -, h⟩ := bind_eq_ok.mp h
    cases h; rfl
  | .assign _ _ _, w, w', flow, h => by
    obtain ⟨v, w₁, -, h⟩ := bind_eq_ok.mp h
    cases h; rfl
  | .cond _ hbody, w, w', flow, h => by
    obtain ⟨v, w₁, -, h⟩ := bind_eq_ok.mp h
    split at h
    · exact (hbody.fits_runAll hsolid hc h).of_next fun _ => rfl
    · cases h; rfl
  | .loop _ hbody, w, w', flow, h => by
    rw [Stmt.returns_loop]
    exact Evaluation.fits_repeatWhile (fun _ _ _ hv ht => Expr.truthy_of_isTrue ht hv)
      (fun _ _ _ h => hbody.fits_runAll hsolid hc h) h
  | .retVoid hr, w, w', flow, h => by
    cases h
    rw [hr]; rfl
  | .ret hr hv, w, w', flow, h => by
    obtain ⟨v, w₁, hx, h⟩ := bind_eq_ok.mp h
    cases h
    rw [hr] at hx ⊢
    exact hv.length_evalInto hsolid hc hx
  | .eval _, w, w', flow, h => by
    obtain ⟨v, w₁, -, h⟩ := bind_eq_ok.mp h
    cases h; rfl
  | .block hbody, w, w', flow, h => hbody.fits_runAll hsolid hc h

theorem Stmt.CodedAll.fits_runAll (hsolid : p.Solid) (hc : calls.Valued p) {Γ : Context} {n n' : Nat}
    {ss : List Stmt} {c : List Line} : Stmt.CodedAll p Γ n ss n' c → ∀ {w w' : World} {flow : Flow},
      Stmt.runAll calls fuel Γ ss w = .ok (flow, w') → flow.Fits (Γ.ret.getD .void) (Stmt.anyReturns ss)
  | .nil, w, w', flow, h => by cases h; rfl
  | .cons (s := s) hs hss, w, w', flow, h => by
    obtain ⟨flow₁, w₁, hflow, h⟩ := bind_eq_ok.mp h
    have hfits := hs.fits_run hsolid hc hflow
    cases flow₁ with
    | next =>
      rw [Stmt.anyReturns, show s.returns = false from hfits, Bool.false_or, ← Stmt.after_ret Γ s]
      exact hss.fits_runAll hsolid hc h
    | returned v => cases h; exact hfits

end

/-- A function gives a value unless it is void. -/
theorem Function.Coded.length_apply (hsolid : p.Solid) (hc : calls.Valued p) {f : Function} {n n' : Nat}
    {body : List Line} (hf : f.Coded p Γ n n' body) {args : List Value}
    (h : f.apply calls fuel Γ args w = .ok (v, w')) : v.toList.length = f.ret.values.length := by
  obtain ⟨⟨⟩, w₁, -, h⟩ := bind_eq_ok.mp h
  obtain ⟨flow, w₂, hflow, h⟩ := bind_eq_ok.mp h
  have hfits : flow.Fits f.ret f.returns := hf.body.fits_runAll hsolid hc hflow
  cases flow with
  | returned v => cases h; exact hfits
  | next =>
    cases h
    have hvoid : f.ret = .void := by
      refine Decidable.byContradiction fun hv => ?_
      have hreturns := hf.returns hv
      rw [show f.returns = false from hfits] at hreturns
      cases hreturns
    rw [hvoid]; rfl

namespace Program.Coded

variable {ls : List Line}

theorem find?_eq (h : p.Coded ls) {f : Function} (hf : (Γ, f) ∈ p.functions) :
    p.find? f.name = some (Γ, f) := by
  rw [find?]
  cases hfind : List.find? (fun x : Context × Function => x.2.name = f.name) p.functions with
  | none =>
    have hnone := List.find?_eq_none.mp hfind _ hf
    exact absurd (decide_eq_true rfl) hnone
  | some x =>
    have hx := List.mem_of_find?_eq_some hfind
    have hname := List.find?_some hfind
    rw [h.eq_of_name_eq hx hf (of_decide_eq_true hname)]

theorem valued (h : p.Coded ls) (hsolid : p.Solid) (n : Nat) : (p.call n).Valued p := by
  induction n with
  | zero => exact fun _ _ _ _ _ _ _ h => by cases h
  | succ n ih =>
    intro name sig args w v w' hcallee hv
    cases hcallee with
    | @builtin b hb =>
      simp only [Program.call, Builtin.find?_of_mem b hb] at hv
      cases ha : b.action with
      | none => rw [ha] at hv; cases hv
      | some action =>
        rw [ha] at hv
        have hp := Except.mapError_eq_ok.mp hv
        rw [Builtin.signature, (Builtin.action_of_mem b hb ha).1]
        exact (World.perform_ok hp).2.length_eq
    | @function Γ f hf hn =>
      obtain ⟨a, k, k', body, hcoded, -, -⟩ := h.standsAt hf
      simp only [Program.call, hn, h.find?_eq hf] at hv
      exact hcoded.length_apply hsolid ih hv

end Program.Coded

end Labyrinth
