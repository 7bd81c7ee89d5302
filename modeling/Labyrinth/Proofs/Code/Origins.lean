import Labyrinth.Proofs.Code.Coded

/-!
# The lines of a program

`Line.Made p` lists the lines that the code of a program `p` consists of, and where their names come from:
variables that the program declares, functions that it may call, and numbered labels.
-/

namespace Labyrinth

/-- A line that the code of the program may have. -/
inductive Line.Made (p : Program) : Line → Prop
  | int (n : Int64) : Made p (.plain (.pushInt n))
  | float (x : Float) : Made p (.plain (.pushFloat x))
  | load {x : String} {t : Ty} : (x, t) ∈ p.declared → Made p (.plain (.load x))
  | binary (o : BinaryOp) (tl tr : Ty) : Made p (.taking [tr, tl] (.binary o))
  | unary (o : UnaryOp) (t : Ty) : Made p (.taking [t] o.instruction)
  | toFloat : Made p (.taking [.int] .toFloat)
  | call {name : String} {argc : Nat} {sig : Signature} {tys : List Ty} : p.Callee name sig →
      argc = sig.params.length → tys.length = sig.params.length →
      (∀ ts : List Ty, sig.params = ts.map Slot.exact → tys = ts) →
      Made p (.taking tys.reverse (.call name argc))
  | store {x : String} {t : Ty} : (x, t) ∈ p.declared → Made p (.taking [t] (.store x))
  | branch (n : Nat) : Made p (.taking [.bool] (.jumpIfFalse (labelName n)))
  | jump (n : Nat) : Made p (.plain (.jump (labelName n)))
  | label (n : Nat) : Made p (.plain (.label (labelName n)))
  | retVoid : Made p (.plain .retVoid)
  | ret (t : Ty) : Made p (.taking t.values .ret)
  | nop (mark : Mark) : Made p ⟨.nop, mark⟩
  | func {f : Function} : p.Callee f.name f.signature → Made p (.plain (.func f.name f.params.length))
  | fin : Made p (.plain .fin)

variable {p : Program} {Γ : Context}

theorem Expr.CodedArgs.tys_eq {slots : List Slot} {args : List Expr} {tys : List Ty}
    {ls : List Line} : Expr.CodedArgs p Γ slots args tys ls →
      ∀ ts : List Ty, slots = ts.map Slot.exact → tys = ts
  | .nil, [], _ => rfl
  | .cons (s := .exact _) _ _ _ hes, t :: ts, h => by
    obtain ⟨ht, hts⟩ := List.cons.inj h
    cases ht
    rw [hes.tys_eq ts hts]
    rfl
  | .cons (s := .any) _ _ _ _, t :: ts, h => nomatch (List.cons.inj h).1

namespace Line

variable {c d : List Line} {l : Line}

theorem made_append (hc : ∀ l ∈ c, l.Made p) (hd : ∀ l ∈ d, l.Made p) : ∀ l ∈ c ++ d, l.Made p :=
  List.forall_mem_append.mpr ⟨hc, hd⟩

theorem made_single (h : l.Made p) : ∀ k ∈ [l], Made p k :=
  List.forall_mem_singleton.mpr h

theorem made_widening (slot ty : Ty) : ∀ l ∈ widening slot ty, l.Made p := by
  unfold widening
  split
  · exact made_single .toFloat
  · exact List.forall_mem_nil _

end Line

open Line

mutual

theorem Expr.Coded.made {e : Expr} {ty : Ty} {c : List Line} : e.Coded p Γ ty c → ∀ l ∈ c, l.Made p
  | .int => made_single (.int _)
  | .float => made_single (.float _)
  | .bool => made_single (.int _)
  | .var _ hd => made_single (.load hd)
  | .binary hl hr _ => made_append (made_append hl.made hr.made) (made_single (.binary ..))
  | .unary he _ => made_append he.made (made_single (.unary ..))
  | .call _ hc _ ha => by
    refine made_append ha.made (made_single ?_)
    exact .call hc ha.length_args ha.length_tys ha.tys_eq

theorem Expr.CodedArgs.made {slots : List Slot} {args : List Expr} {tys : List Ty} {c : List Line} :
    Expr.CodedArgs p Γ slots args tys c → ∀ l ∈ c, l.Made p
  | .nil => List.forall_mem_nil _
  | .cons he _ _ hes => made_append (made_append he.made (made_widening _ _)) hes.made

end

theorem Expr.CodedInto.made {e : Expr} {slot : Ty} {c : List Line} (h : e.CodedInto p Γ slot c) :
    ∀ l ∈ c, l.Made p := by
  obtain ⟨he, _⟩ := h
  exact made_append he.made (made_widening _ _)

mutual

theorem Stmt.Coded.made {Γ : Context} {n n' : Nat} {s : Stmt} {c : List Line} :
    s.Coded p Γ n n' c → ∀ l ∈ c, l.Made p
  | .declare hi _ hd => made_append hi.made (made_single (.store hd))
  | .assign _ hd hv => made_append hv.made (made_single (.store hd))
  | .cond ht hb => by
    have htest := made_append ht.made (made_single (.branch n))
    exact made_append (made_append htest hb.made) (made_single (.label n))
  | .loop ht hb => by
    have hstart := made_append (made_single (.label n)) ht.made
    have htest := made_append hstart (made_single (.branch (n + 1)))
    refine made_append (made_append htest hb.made) ?_
    exact made_append (made_single (.jump n)) (made_single (.label (n + 1)))
  | .retVoid _ => made_single .retVoid
  | .ret _ hv => made_append hv.made (made_single (.ret _))
  | .eval hv => made_append hv.made (made_single (.nop _))
  | .block hb => hb.made

theorem Stmt.CodedAll.made {Γ : Context} {n n' : Nat} {ss : List Stmt} {c : List Line} :
    Stmt.CodedAll p Γ n ss n' c → ∀ l ∈ c, l.Made p
  | .nil => List.forall_mem_nil _
  | .cons hs hss => made_append hs.made hss.made

end

theorem Function.Coded.made {n n' : Nat} {f : Function} {body : List Line}
    (h : f.Coded p Γ n n' body) : ∀ l ∈ f.lines body, l.Made p := by
  have hhead := made_single (.func (.function h.mem h.unnamed))
  have hparams : ∀ l ∈ f.params.reverse.map fun x => taking [x.ty] (.store x.name), l.Made p :=
    List.forall_mem_map.mpr fun x hx => .store (h.params x (List.mem_reverse.mp hx))
  exact made_append (made_append (made_append hhead hparams) h.body.made) (made_single .fin)

theorem Program.CodedFrom.made {n : Nat} {ds : Program} {ls : List Line} (h : CodedFrom p Γ n ds ls) :
    ∀ l ∈ ls, l.Made p := by
  induction h with
  | nil => exact List.forall_mem_nil _
  | cons hf _ ih => exact made_append hf.made ih

end Labyrinth
