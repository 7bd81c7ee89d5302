import Labyrinth.Proofs.Code.Elaboration
import Labyrinth.Proofs.Code.Places

/-!
# Functions in front

Functions in front of a program change nothing about it but the numbers of its labels: what is in order
without them has the same lines behind them, with all numbers moved by the same amount
(`Program.CodedFrom.transfer`). For this, `Context.Extends` is that more functions are known.
-/

namespace Labyrinth

/-- In `Δ` the same is known as in `Γ`, and maybe more functions. -/
structure Context.Extends (Γ Δ : Context) : Prop where
  inner : Δ.inner = Γ.inner
  outer : Δ.outer = Γ.outer
  ret : Δ.ret = Γ.ret
  functions : ∀ name sig, Γ.function? name = some sig → Δ.function? name = some sig

namespace Context.Extends

variable {Γ Δ Θ : Context}

theorem refl (Γ : Context) : Γ.Extends Γ := ⟨rfl, rfl, rfl, fun _ _ h => h⟩

theorem trans (h : Γ.Extends Δ) (h' : Δ.Extends Θ) : Γ.Extends Θ where
  inner := h'.inner.trans h.inner
  outer := h'.outer.trans h.outer
  ret := h'.ret.trans h.ret
  functions name sig hsig := h'.functions name sig (h.functions name sig hsig)

theorem lookup?_eq (h : Γ.Extends Δ) (name : String) : Δ.lookup? name = Γ.lookup? name := by
  rw [Context.lookup?, Context.lookup?, h.inner, h.outer]

theorem push (h : Γ.Extends Δ) : Γ.push.Extends Δ.push where
  inner := rfl
  outer := by rw [Context.push, Context.push, h.inner, h.outer]
  ret := h.ret
  functions := h.functions

theorem withVariable (h : Γ.Extends Δ) (name : String) (ty : Ty) :
    (Γ.withVariable name ty).Extends (Δ.withVariable name ty) where
  inner := by rw [Context.withVariable, Context.withVariable, h.inner]
  outer := h.outer
  ret := h.ret
  functions := h.functions

theorem after (h : Γ.Extends Δ) (s : Stmt) : (s.after Γ).Extends (s.after Δ) := by
  cases s with
  | declare k ty name init => exact h.withVariable name ty
  | _ => exact h

theorem addFunction (h : Γ.Extends Δ) (f : Function) : (Γ.addFunction f).Extends (Δ.addFunction f) where
  inner := h.inner
  outer := h.outer
  ret := h.ret
  functions := by
    intro name sig hsig
    rw [Context.function?, Context.addFunction, List.lookup_cons] at hsig ⊢
    split
    · next heq =>
      rw [heq] at hsig
      exact hsig
    · next hne =>
      rw [hne] at hsig
      exact h.functions name sig hsig

/-- A function that is new takes nothing from what is known. -/
theorem of_fresh {f : Function} (h : Γ.function? f.name = none) : Γ.Extends (Γ.addFunction f) where
  inner := rfl
  outer := rfl
  ret := rfl
  functions := by
    intro name sig hsig
    have hne : name ≠ f.name := by
      rintro rfl
      rw [h] at hsig
      cases hsig
    rw [Context.function?, Context.addFunction, List.lookup_cons, beq_eq_false_iff_ne.mpr hne]
    exact hsig

theorem inside (h : Γ.Extends Δ) (f : Function) : (Γ.inside f).Extends (Δ.inside f) where
  inner := rfl
  outer := (h.addFunction f).push.outer
  ret := rfl
  functions := (h.addFunction f).functions

end Context.Extends

/-! ### Lines with other labels -/

/-- The instruction with the labels that `g` gives. -/
def Instruction.relabel (g : String → String) : Instruction → Instruction
  | .label name => .label (g name)
  | .jump name => .jump (g name)
  | .jumpIfFalse name => .jumpIfFalse (g name)
  | i => i

namespace Line

def relabel (g : String → String) (l : Line) : Line := { l with instruction := l.instruction.relabel g }

variable {g : String → String}

theorem code_relabel (ls : List Line) :
    code (ls.map (relabel g)) = (code ls).map (Instruction.relabel g) := by
  rw [code, code, List.map_map, List.map_map]
  rfl

theorem relabel_taking (tys : List Ty) (i : Instruction) :
    (taking tys i).relabel g = taking tys (i.relabel g) := rfl

theorem relabel_widening (slot ty : Ty) :
    (widening slot ty).map (relabel g) = widening slot ty := by
  unfold widening
  split <;> rfl

end Line

/-! ### What is in order with more functions -/

/-- What counts in `p` counts in `p'` too. -/
structure Program.Among (p p' : Program) : Prop where
  declared : p.declared ⊆ p'.declared
  callees : p.callees ⊆ p'.callees
  callee : ∀ {name sig}, p.Callee name sig → p'.Callee name sig

variable {p p' : Program} {Γ Δ : Context} {g : String → String} {k : Nat}

mutual

/-- An expression has no labels, so its lines stay as they are. -/
theorem Expr.Coded.transfer {e : Expr} {ty : Ty} {c : List Line} (hp : p.Among p') (hΔ : Γ.Extends Δ) :
    e.Coded p Γ ty c → e.Coded p' Δ ty c ∧ c.map (Line.relabel g) = c
  | .int => ⟨.int, rfl⟩
  | .float => ⟨.float, rfl⟩
  | .bool => ⟨.bool, rfl⟩
  | .var hx hd => ⟨.var (hΔ.lookup?_eq _ ▸ hx) (hp.declared hd), rfl⟩
  | .binary hl hr hop => by
    obtain ⟨hl, hlabels⟩ := hl.transfer hp hΔ
    obtain ⟨hr, hlabels'⟩ := hr.transfer hp hΔ
    refine ⟨.binary hl hr hop, ?_⟩
    rw [List.map_append, List.map_append, hlabels, hlabels']
    rfl
  | .unary (o := o) he hop => by
    obtain ⟨he, hlabels⟩ := he.transfer hp hΔ
    refine ⟨.unary he hop, ?_⟩
    rw [List.map_append, hlabels]
    cases o <;> rfl
  | .call hf hc hcallee ha => by
    obtain ⟨ha, hlabels⟩ := ha.transfer hp hΔ
    refine ⟨.call (hΔ.functions _ _ hf) (hp.callee hc) (hp.callees hcallee) ha, ?_⟩
    rw [List.map_append, hlabels]
    rfl

theorem Expr.CodedArgs.transfer {slots : List Slot} {args : List Expr} {tys : List Ty}
    {c : List Line} (hp : p.Among p') (hΔ : Γ.Extends Δ) : Expr.CodedArgs p Γ slots args tys c →
      Expr.CodedArgs p' Δ slots args tys c ∧ c.map (Line.relabel g) = c
  | .nil => ⟨.nil, rfl⟩
  | .cons he hfit hv hes => by
    obtain ⟨he, hlabels⟩ := he.transfer hp hΔ
    obtain ⟨hes, hlabels'⟩ := hes.transfer hp hΔ
    refine ⟨.cons he hfit hv hes, ?_⟩
    rw [List.map_append, List.map_append, hlabels, hlabels', Line.relabel_widening]

end

theorem Expr.CodedInto.transfer {e : Expr} {slot : Ty} {c : List Line} (hp : p.Among p')
    (hΔ : Γ.Extends Δ) (h : e.CodedInto p Γ slot c) :
    e.CodedInto p' Δ slot c ∧ c.map (Line.relabel g) = c := by
  obtain ⟨he, hfit⟩ := h
  obtain ⟨he, hlabels⟩ := he.transfer hp hΔ
  refine ⟨⟨he, hfit⟩, ?_⟩
  rw [List.map_append, hlabels, Line.relabel_widening]

mutual

theorem Stmt.Coded.transfer {Γ Δ : Context} {n n' : Nat} {s : Stmt} {c : List Line}
    (hp : p.Among p') (hg : ∀ n, g (labelName n) = labelName (n + k)) (hΔ : Γ.Extends Δ) :
    s.Coded p Γ n n' c → s.Coded p' Δ (n + k) (n' + k) (c.map (Line.relabel g))
  | .declare hi hn hd => by
    obtain ⟨hi, hlabels⟩ := hi.transfer (g := g) hp hΔ
    rw [List.map_append, hlabels]
    exact .declare hi (hΔ.inner ▸ hn) (hp.declared hd)
  | .assign hn hd hv => by
    obtain ⟨hv, hlabels⟩ := hv.transfer (g := g) hp hΔ
    rw [List.map_append, hlabels]
    exact .assign (hΔ.lookup?_eq _ ▸ hn) (hp.declared hd) hv
  | .cond ht hb => by
    obtain ⟨ht, hlabels⟩ := ht.transfer (g := g) hp hΔ
    have hb := hb.transfer hp hg hΔ.push
    rw [Nat.add_right_comm] at hb
    simp only [List.map_append, List.map_cons, List.map_nil, hlabels, Line.relabel_taking,
      Instruction.relabel, hg]
    exact .cond ht hb
  | .loop ht hb => by
    obtain ⟨ht, hlabels⟩ := ht.transfer (g := g) hp hΔ
    have hb := hb.transfer hp hg hΔ.push
    rw [Nat.add_right_comm] at hb
    simp only [List.map_append, List.map_cons, List.map_nil, hlabels, Line.relabel_taking,
      Instruction.relabel, hg, Nat.add_right_comm n 1 k]
    exact .loop ht hb
  | .retVoid hr => .retVoid (hΔ.ret.trans hr)
  | .ret hr hv => by
    obtain ⟨hv, hlabels⟩ := hv.transfer (g := g) hp hΔ
    rw [List.map_append, hlabels]
    exact .ret (hΔ.ret.trans hr) hv
  | .eval hv => by
    obtain ⟨hv, hlabels⟩ := hv.transfer (g := g) hp hΔ
    rw [List.map_append, hlabels]
    exact .eval hv
  | .block hb => .block (hb.transfer hp hg hΔ.push)

theorem Stmt.CodedAll.transfer {Γ Δ : Context} {n n' : Nat} {ss : List Stmt} {c : List Line}
    (hp : p.Among p') (hg : ∀ n, g (labelName n) = labelName (n + k)) (hΔ : Γ.Extends Δ) :
    Stmt.CodedAll p Γ n ss n' c →
      Stmt.CodedAll p' Δ (n + k) ss (n' + k) (c.map (Line.relabel g))
  | .nil => .nil
  | .cons hs hss => by
    rw [List.map_append]
    exact .cons (hs.transfer hp hg hΔ) (hss.transfer hp hg (hΔ.after _))

end

theorem Function.lines_relabel (f : Function) (body : List Line) :
    (f.lines body).map (Line.relabel g) = f.lines (body.map (Line.relabel g)) := by
  simp only [Function.lines, List.map_append, List.map_map]
  rfl

/-! ### Programs of two parts -/

/-- The context behind functions. -/
def Context.behind (Γ : Context) : List Function → Context
  | [] => Γ
  | f :: fs => behind (Γ.addFunction f) fs

namespace Program

/-- What counts in a program counts with more declarations too. -/
theorem among_of_subset {p p' : Program} (h : p ⊆ p') : p.Among p' := by
  have hfunctions {Θ : Context} {f : Function} (hf : (Θ, f) ∈ p.functions) :
      ∃ Θ', (Θ', f) ∈ p'.functions :=
    exists_mem_functionsFrom .initial (h (mem_of_mem_functionsFrom hf))
  constructor
  case declared =>
    intro x hx
    obtain ⟨d, hd, hx⟩ := List.mem_flatMap.mp hx
    exact List.mem_flatMap.mpr ⟨d, h hd, hx⟩
  case callees =>
    intro name hname
    obtain ⟨⟨Θ, f⟩, hf, hname⟩ := List.mem_flatMap.mp hname
    obtain ⟨Θ', hf⟩ := hfunctions hf
    exact List.mem_flatMap.mpr ⟨(Θ', f), hf, hname⟩
  case callee =>
    intro name sig hcallee
    cases hcallee with
    | builtin hb => exact .builtin hb
    | function hf hn =>
      obtain ⟨Θ', hf⟩ := hfunctions hf
      exact .function hf hn

variable {fs gs : List Function} {n : Nat} {ls : List Line}

theorem CodedFrom.split (h : CodedFrom p Γ n (fs.map .function ++ gs.map .function) ls) :
    ∃ m c d, ls = c ++ d ∧ CodedFrom p Γ n (fs.map .function) c ∧ Γ.Extends (Γ.behind fs) ∧
      CodedFrom p (Γ.behind fs) m (gs.map .function) d := by
  induction fs generalizing Γ n ls with
  | nil => exact ⟨n, [], ls, rfl, .nil, .refl Γ, h⟩
  | cons f fs ih =>
    cases h with
    | @cons _ n n' _ _ body ls hf hrest =>
      obtain ⟨m, c, d, rfl, hc, hΓ, hd⟩ := ih hrest
      refine ⟨m, f.lines body ++ c, d, (List.append_assoc ..).symm, .cons hf hc, ?_, hd⟩
      exact (Context.Extends.of_fresh hf.fresh).trans hΓ

/-- Behind functions, the lines of a program have other labels. -/
theorem CodedFrom.relabel {ls' : List Line} (hp : p.Among p')
    (hg : ∀ n, g (labelName n) = labelName (n + k)) (hΔ : Γ.Extends Δ)
    (h : CodedFrom p Γ n (fs.map .function) ls)
    (h' : CodedFrom p' Δ (n + k) (fs.map .function) ls') :
    Line.code ls' = (Line.code ls).map (Instruction.relabel g) := by
  induction fs generalizing Γ Δ n ls ls' with
  | nil =>
    cases h
    cases h'
    rfl
  | cons f fs ih =>
    cases h with
    | @cons _ n n₁ _ _ body ls hf hrest =>
    cases h' with
    | @cons _ _ n₂ _ _ body' ls' hf' hrest' =>
      obtain ⟨Θ, hbody⟩ := (hf.body.transfer hp hg (hΔ.inside f)).codeAll
      obtain ⟨Θ', hbody'⟩ := hf'.body.codeAll
      obtain ⟨-, hn, hbody⟩ := Compiled.mk.inj (Except.ok.inj (hbody'.symm.trans hbody))
      subst hn
      have hhead : Line.code (f.lines body') = (Line.code (f.lines body)).map (Instruction.relabel g) := by
        rw [← Line.code_relabel, f.lines_relabel]
        simp only [Function.lines, Line.code_append, hbody]
      rw [Line.code_append, Line.code_append, List.map_append, hhead, ih (hΔ.addFunction f) hrest hrest']

end Program

end Labyrinth
