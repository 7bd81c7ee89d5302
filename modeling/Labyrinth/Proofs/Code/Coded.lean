import Labyrinth.Proofs.Code.Marks
import Labyrinth.Code.OfProgram

/-!
# Programs that are in order and their lines

`Expr.Coded p Γ e ty ls`: in the context `Γ` inside the program `p`, the expression `e` is in order and
has the type `ty`, and `ls` are the instructions of its code with their marks. Statements, functions
and programs alike. `Program.exists_coded`: a program that was checked has such lines; they are its
code (`Program.CodedFrom.code`) and its marks.
-/

namespace Labyrinth

structure Line where
  instruction : Instruction
  mark : Mark

namespace Line

def taking (tys : List Ty) (i : Instruction) : Line := ⟨i, .taking tys⟩

abbrev plain (i : Instruction) : Line := taking [] i

/-- The widening instruction for a slot, if there is one. -/
def widening (slot ty : Ty) : List Line :=
  if slot.widens ty then [taking [.int] .toFloat] else []

/-- The code of lines. -/
def code (ls : List Line) : Code := ls.map instruction

/-- The marks of lines. -/
def marks (ls : List Line) : List Mark := ls.map mark

variable (ls ls' : List Line)

@[simp] theorem code_append : code (ls ++ ls') = code ls ++ code ls' := List.map_append

@[simp] theorem marks_append : marks (ls ++ ls') = marks ls ++ marks ls' := List.map_append

@[simp] theorem code_cons (l : Line) : code (l :: ls) = l.instruction :: code ls := rfl

@[simp] theorem marks_cons (l : Line) : marks (l :: ls) = l.mark :: marks ls := rfl

@[simp] theorem code_nil : code [] = [] := rfl

@[simp] theorem marks_nil : marks [] = [] := rfl

@[simp] theorem length_code : (code ls).length = ls.length := List.length_map ..

@[simp] theorem instruction_taking (tys : List Ty) (i : Instruction) :
    (taking tys i).instruction = i := rfl

@[simp] theorem mark_taking (tys : List Ty) (i : Instruction) : (taking tys i).mark = .taking tys := rfl

@[simp] theorem marks_widening (slot ty : Ty) : marks (widening slot ty) = slot.wideningMarks ty := by
  unfold widening Ty.wideningMarks
  split <;> rfl

end Line

def UnaryOp.instruction : UnaryOp → Instruction
  | neg => .neg
  | not => .not

def Function.signature (f : Function) : Signature := ⟨f.ret, f.params.map (.exact ·.ty)⟩

/-- What a name may be called as: a built-in function, or one of the program's that has the name of
no built-in. -/
inductive Program.Callee (p : Program) : String → Signature → Prop
  | builtin {b : Builtin} : b ∈ Builtin.table → Callee p b.name b.signature
  | function {Γ : Context} {f : Function} :
      (Γ, f) ∈ p.functions → Builtin.find? f.name = none → Callee p f.name f.signature

/-! ### The relations -/

variable (p : Program)

mutual

inductive Expr.Coded (Γ : Context) : Expr → Ty → List Line → Prop
  | int {k : Location} {n : Int64} : Coded Γ (.int k n) .int [.plain (.pushInt n)]
  | float {k : Location} {raw : String} {x : Float} :
      Coded Γ (.float k raw x) .float [.plain (.pushFloat x)]
  | bool {k : Location} {b : Bool} :
      Coded Γ (.bool k b) .bool [.plain (.pushInt (if b then 1 else 0))]
  | var {k : Location} {x : String} {t : Ty} :
      Γ.lookup? x = some t → (x, t) ∈ p.declared →
      Coded Γ (.var k x) t [.plain (.load x)]
  | binary {k : Location} {o : BinaryOp} {l r : Expr} {tl tr t : Ty} {c d : List Line} :
      Coded Γ l tl c → Coded Γ r tr d → o.typeOf tl tr = .ok t →
      Coded Γ (.binary k o l r) t (c ++ d ++ [.taking [tr, tl] (.binary o)])
  | unary {k : Location} {o : UnaryOp} {e : Expr} {te t : Ty} {c : List Line} :
      Coded Γ e te c → o.typeOf te = .ok t →
      Coded Γ (.unary k o e) t (c ++ [.taking [te] o.instruction])
  | call {k : Location} {x : String} {g : Signature} {args : List Expr} {tys : List Ty}
      {c : List Line} :
      Γ.function? x = some g → p.Callee x g → x ∈ p.callees →
      CodedArgs Γ g.params args tys c →
      Coded Γ (.call k x args) g.ret (c ++ [.taking tys.reverse (.call x args.length)])

/-- The arguments have the types `tys` when they are widened. -/
inductive Expr.CodedArgs (Γ : Context) : List Slot → List Expr → List Ty → List Line → Prop
  | nil : CodedArgs Γ [] [] [] []
  | cons {s : Slot} {slots : List Slot} {e : Expr} {es : List Expr} {t : Ty} {tys : List Ty}
      {c d : List Line} :
      Coded Γ e t c → (s.into t).accepts t → s.into t ≠ .void →
      CodedArgs Γ slots es tys d →
      CodedArgs Γ (s :: slots) (e :: es) (s.into t :: tys)
        (c ++ Line.widening (s.into t) t ++ d)

end

/-- An expression in a slot. -/
inductive Expr.CodedInto (Γ : Context) (slot : Ty) : Expr → List Line → Prop
  | mk {e : Expr} {t : Ty} {c : List Line} :
      e.Coded p Γ t c → slot.accepts t → CodedInto Γ slot e (c ++ Line.widening slot t)

mutual

/-- A statement whose labels have the numbers from `n` up to `n'`. -/
inductive Stmt.Coded : Context → Nat → Stmt → Nat → List Line → Prop
  | declare {Γ : Context} {n : Nat} {k : Location} {t : Ty} {x : String} {init : Expr}
      {c : List Line} :
      init.CodedInto p Γ t c → Γ.inner.lookup x = none → (x, t) ∈ p.declared →
      Coded Γ n (.declare k t x init) n (c ++ [.taking [t] (.store x)])
  | assign {Γ : Context} {n : Nat} {k : Location} {t : Ty} {x : String} {value : Expr}
      {c : List Line} :
      Γ.lookup? x = some t → (x, t) ∈ p.declared → value.CodedInto p Γ t c →
      Coded Γ n (.assign k x value) n (c ++ [.taking [t] (.store x)])
  | cond {Γ : Context} {n n' : Nat} {k : Location} {test : Expr} {body : List Stmt}
      {c d : List Line} :
      test.Coded p Γ .bool c → CodedAll Γ.push (n + 1) body n' d →
      Coded Γ n (.cond k test body) n'
        (c ++ [.taking [.bool] (.jumpIfFalse (labelName n))] ++ d ++
          [.plain (.label (labelName n))])
  | loop {Γ : Context} {n n' : Nat} {k : Location} {test : Expr} {body : List Stmt}
      {c d : List Line} :
      test.Coded p Γ .bool c → CodedAll Γ.push (n + 2) body n' d →
      Coded Γ n (.loop k test body) n'
        ([.plain (.label (labelName n))] ++ c ++
          [.taking [.bool] (.jumpIfFalse (labelName (n + 1)))] ++ d ++
          [.plain (.jump (labelName n)), .plain (.label (labelName (n + 1)))])
  | retVoid {Γ : Context} {n : Nat} {k : Location} :
      Γ.ret = some .void → Coded Γ n (.ret k none) n [.plain .retVoid]
  | ret {Γ : Context} {n : Nat} {k : Location} {t : Ty} {value : Expr} {c : List Line} :
      Γ.ret = some t → value.CodedInto p Γ t c →
      Coded Γ n (.ret k (some value)) n (c ++ [.taking t.values .ret])
  | eval {Γ : Context} {n : Nat} {value : Expr} {t : Ty} {c : List Line} :
      value.Coded p Γ t c →
      Coded Γ n (.eval value) n (c ++ [⟨.nop, { discards := t ≠ .void }⟩])
  | block {Γ : Context} {n n' : Nat} {k : Location} {body : List Stmt} {c : List Line} :
      CodedAll Γ.push n body n' c → Coded Γ n (.block k body) n' c

inductive Stmt.CodedAll : Context → Nat → List Stmt → Nat → List Line → Prop
  | nil {Γ : Context} {n : Nat} : CodedAll Γ n [] n []
  | cons {Γ : Context} {n n' n'' : Nat} {s : Stmt} {r : List Stmt} {c d : List Line} :
      Coded Γ n s n' c → CodedAll (s.after Γ) n' r n'' d →
      CodedAll Γ n (s :: r) n'' (c ++ d)

end

/-- The lines of a function around those of its body. -/
def Function.lines (f : Function) (body : List Line) : List Line :=
  [.plain (.func f.name f.params.length)] ++
    f.params.reverse.map (fun x => .taking [x.ty] (.store x.name)) ++ body ++ [.plain .fin]

/-- A function of the program in front of which the context is `Γ`. -/
structure Function.Coded (Γ : Context) (n : Nat) (f : Function) (n' : Nat) (body : List Line) :
    Prop where
  mem : (Γ, f) ∈ p.functions
  fresh : Γ.function? f.name = none
  unnamed : Builtin.find? f.name = none
  enter : Γ.enter f = .ok (Γ.inside f)
  params : ∀ x ∈ f.params, (x.name, x.ty) ∈ p.declared
  body : Stmt.CodedAll p (Γ.inside f) n f.body n' body
  returns : f.ret ≠ .void → f.returns = true

/-- Declarations, all of which are functions. -/
inductive Program.CodedFrom : Context → Nat → Program → List Line → Prop
  | nil {Γ : Context} {n : Nat} : CodedFrom Γ n [] []
  | cons {Γ : Context} {n n' : Nat} {f : Function} {ds : Program} {body ls : List Line} :
      f.Coded p Γ n n' body → CodedFrom (Γ.addFunction f) n' ds ls →
      CodedFrom Γ n (.function f :: ds) (f.lines body ++ ls)

/-- The lines of a whole program. -/
def Program.Coded (ls : List Line) : Prop := Program.CodedFrom p .initial 0 p ls

/-! ### What the relations say about types, code and marks -/

theorem Except.mapError_ok {ε ε' α : Type} (f : ε → ε') (a : α) :
    (Except.ok a : Except ε α).mapError f = .ok a := rfl

variable {p} {Γ : Context}

theorem Expr.CodedArgs.lengths {slots : List Slot} {args : List Expr} {tys : List Ty} {ls : List Line} :
    Expr.CodedArgs p Γ slots args tys ls → args.length = slots.length ∧ tys.length = slots.length
  | .nil => ⟨rfl, rfl⟩
  | .cons _ _ _ hes => by simp [hes.lengths]

theorem Expr.CodedArgs.length_args {slots : List Slot} {args : List Expr} {tys : List Ty}
    {ls : List Line} (h : Expr.CodedArgs p Γ slots args tys ls) : args.length = slots.length :=
  h.lengths.1

theorem Expr.CodedArgs.length_tys {slots : List Slot} {args : List Expr} {tys : List Ty}
    {ls : List Line} (h : Expr.CodedArgs p Γ slots args tys ls) : tys.length = slots.length :=
  h.lengths.2

mutual

theorem Expr.Coded.typeOf {e : Expr} {ty : Ty} {ls : List Line} : e.Coded p Γ ty ls → e.typeOf Γ = .ok ty
  | .int => rfl
  | .float => rfl
  | .bool => rfl
  | .var h _ => by simp only [Expr.typeOf, Context.resolve, h]
  | .binary hl hr hop => by
    simp only [Expr.typeOf, hl.typeOf, hr.typeOf, hop, bind, Except.bind]
    rfl
  | .unary he hop => by
    simp only [Expr.typeOf, he.typeOf, hop, bind, Except.bind]
    rfl
  | .call (x := x) hf _ _ ha => by
    simp only [Expr.typeOf, hf, ha.length_args, ne_eq, not_true_eq_false, if_false,
      ha.checkArgs x 1, bind, Except.bind, pure, Except.pure]

theorem Expr.CodedArgs.checkArgs {slots : List Slot} {args : List Expr} {tys : List Ty}
    {ls : List Line} :
    Expr.CodedArgs p Γ slots args tys ls → ∀ (name : String) (index : Nat),
      Expr.checkArgs Γ name index slots args = .ok ()
  | .nil, _, _ => rfl
  | .cons (s := s) (t := t) he hfit hv hes, name, index => by
    have hadmits : s.admits t = true := by
      cases s with
      | exact slot => exact hfit
      | any => exact decide_eq_true hv
    simp only [Expr.checkArgs, he.typeOf, hadmits, if_true, hes.checkArgs, bind, Except.bind]

end

theorem Expr.Coded.ty_eq {e : Expr} {ty : Ty} {ls : List Line} (h : e.Coded p Γ ty ls) : e.ty Γ = ty := by
  rw [Expr.ty, h.typeOf]; rfl

@[simp] theorem Ty.widens_self (ty : Ty) : ty.widens ty = false := by cases ty <;> rfl

/-- An expression in a slot has behind its code what widens it. -/
theorem Expr.widen_eq {e : Expr} {slot ty : Ty} (h : e.typeOf Γ = .ok ty) (c : Code) :
    e.widen Γ slot c = .ok (c ++ Line.code (Line.widening slot ty)) := by
  unfold Expr.widen Line.widening Ty.widens
  rw [h]
  by_cases hs : slot = .float <;> by_cases ht : ty = .int <;> simp [hs, ht]

theorem Builtin.checkCall_signature (loc : Location) :
    ∀ b ∈ Builtin.table, Builtin.checkCall b.name loc b.params.length = .ok () := by
  intro b hb
  simp only [Builtin.table, List.mem_cons, List.not_mem_nil, or_false] at hb
  rcases hb with rfl | rfl | rfl | rfl | rfl | rfl | rfl | rfl <;> rfl

/-- The rules about calls of built-in functions follow from their signatures. -/
theorem Program.Callee.checkCall {name : String} {sig : Signature} (h : p.Callee name sig)
    (loc : Location) : Builtin.checkCall name loc sig.params.length = .ok () := by
  cases h with
  | builtin hb =>
    rw [Builtin.signature, List.length_map]
    exact Builtin.checkCall_signature loc _ hb
  | function _ hn => simp only [Builtin.checkCall, hn]

mutual

theorem Expr.Coded.code {e : Expr} {ty : Ty} {ls : List Line} :
    e.Coded p Γ ty ls → e.code Γ = .ok (Line.code ls)
  | .int => rfl
  | .float => rfl
  | .bool => rfl
  | .var _ _ => rfl
  | .binary hl hr _ => by
    simp [Expr.code, hl.code, hr.code, bind, Except.bind, pure, Except.pure]
  | .unary (o := o) he _ => by
    cases o <;> simp [Expr.code, he.code, UnaryOp.instruction, bind, Except.bind, pure, Except.pure]
  | .call (k := k) hf hc _ ha => by
    have hcheck := hc.checkCall k
    rw [← ha.length_args] at hcheck
    simp [Expr.code, hcheck, hf, ha.codeArgs, bind, Except.bind, pure, Except.pure]

theorem Expr.CodedArgs.codeArgs {slots : List Slot} {args : List Expr} {tys : List Ty}
    {ls : List Line} :
    Expr.CodedArgs p Γ slots args tys ls → Expr.codeArgs Γ slots args = .ok (Line.code ls)
  | .nil => rfl
  | .cons (s := .exact _) he _ _ hes => by
    simp [Expr.codeArgs, he.code, Expr.widen_eq he.typeOf, hes.codeArgs, Slot.into, bind,
      Except.bind, pure, Except.pure]
  | .cons (s := .any) he _ _ hes => by
    simp [Expr.codeArgs, he.code, hes.codeArgs, Slot.into, Line.widening, bind, Except.bind, pure,
      Except.pure]

end

mutual

theorem Expr.Coded.marks {e : Expr} {ty : Ty} {ls : List Line} :
    e.Coded p Γ ty ls → e.marks Γ = Line.marks ls
  | .int => rfl
  | .float => rfl
  | .bool => rfl
  | .var _ _ => rfl
  | .binary hl hr _ => by simp [Expr.marks, hl.marks, hr.marks, hl.ty_eq, hr.ty_eq]
  | .unary he _ => by simp [Expr.marks, he.marks, he.ty_eq]
  | .call hf _ _ ha => by simp [Expr.marks, Expr.slots, hf, ha.argMarks, ha.argTypes]

theorem Expr.CodedArgs.argMarks {slots : List Slot} {args : List Expr} {tys : List Ty}
    {ls : List Line} :
    Expr.CodedArgs p Γ slots args tys ls → Expr.argMarks Γ slots args = Line.marks ls
  | .nil => rfl
  | .cons he _ _ hes => by simp [Expr.argMarks, he.marks, he.ty_eq, hes.argMarks]

theorem Expr.CodedArgs.argTypes {slots : List Slot} {args : List Expr} {tys : List Ty}
    {ls : List Line} : Expr.CodedArgs p Γ slots args tys ls → Expr.argTypes Γ slots args = tys
  | .nil => rfl
  | .cons he _ _ hes => by
    rw [Expr.argTypes, List.zipWith_cons_cons, he.ty_eq]
    exact congrArg _ hes.argTypes

end

theorem Expr.CodedInto.code {e : Expr} {slot : Ty} {ls : List Line} (h : e.CodedInto p Γ slot ls) :
    e.codeInto Γ slot = .ok (Line.code ls) := by
  obtain ⟨he, _⟩ := h
  simp [Expr.codeInto, he.code, Expr.widen_eq he.typeOf, bind, Except.bind]

theorem Expr.CodedInto.marks {e : Expr} {slot : Ty} {ls : List Line} (h : e.CodedInto p Γ slot ls) :
    e.marksInto Γ slot = Line.marks ls := by
  obtain ⟨he, _⟩ := h
  simp [Expr.marksInto, he.marks, he.ty_eq]

/-- What is known behind a function is that function, or known in front of it. -/
theorem Context.function?_addFunction_eq_some {f : Function} {name : String} {g : Signature}
    (h : (Γ.addFunction f).function? name = some g) :
    name = f.name ∧ g = f.signature ∨ Γ.function? name = some g := by
  rw [Context.function?, Context.addFunction, List.lookup_cons] at h
  split at h
  · next he => exact .inl ⟨eq_of_beq he, (Option.some.inj h).symm⟩
  · exact .inr h

theorem Context.declare_eq {name : String} (h : Γ.inner.lookup name = none) (loc : Location)
    (ty : Ty) : Γ.declare loc name ty = .ok (Γ.withVariable name ty) := by
  rw [Context.declare, h]; rfl

theorem Context.resolve_eq {name : String} {ty : Ty} (h : Γ.lookup? name = some ty)
    (loc : Location) : Γ.resolve loc name = .ok ty := by
  rw [Context.resolve, h]

mutual

theorem Stmt.Coded.code {Γ : Context} {n n' : Nat} {s : Stmt} {ls : List Line} :
    s.Coded p Γ n n' ls → s.code Γ n = .ok ⟨s.after Γ, n', Line.code ls⟩
  | .declare hi hn _ => by
    simp [Stmt.code, hi.code, Context.declare_eq hn, Stmt.after, Except.mapError_ok, bind, Except.bind,
      pure, Except.pure]
  | .assign hn _ hv => by
    simp [Stmt.code, hv.code, Context.resolve_eq hn, Stmt.after, Except.mapError_ok, bind, Except.bind,
      pure, Except.pure]
  | .cond ht hb => by
    obtain ⟨Γ', hb⟩ := hb.codeAll
    simp [Stmt.code, ht.code, hb, Stmt.after, bind, Except.bind, pure, Except.pure]
  | .loop ht hb => by
    obtain ⟨Γ', hb⟩ := hb.codeAll
    simp [Stmt.code, ht.code, hb, Stmt.after, bind, Except.bind, pure, Except.pure]
  | .retVoid _ => rfl
  | .ret hr hv => by
    simp [Stmt.code, hr, hv.code, Stmt.after, bind, Except.bind, pure, Except.pure]
  | .eval hv => by simp [Stmt.code, hv.code, Stmt.after, bind, Except.bind, pure, Except.pure]
  | .block hb => by
    obtain ⟨Γ', hb⟩ := hb.codeAll
    simp [Stmt.code, hb, Stmt.after, bind, Except.bind, pure, Except.pure]

theorem Stmt.CodedAll.codeAll {Γ : Context} {n n' : Nat} {ss : List Stmt} {ls : List Line} :
    Stmt.CodedAll p Γ n ss n' ls →
      ∃ Γ', Stmt.codeAll Γ n ss = .ok ⟨Γ', n', Line.code ls⟩
  | .nil => ⟨_, rfl⟩
  | .cons hs hss => by
    obtain ⟨Γ', h⟩ := hss.codeAll
    exact ⟨Γ', by simp [Stmt.codeAll, hs.code, h, bind, Except.bind, pure, Except.pure]⟩

end

mutual

theorem Stmt.Coded.marks {Γ : Context} {n n' : Nat} {s : Stmt} {ls : List Line} :
    s.Coded p Γ n n' ls → s.marks Γ = Line.marks ls
  | .declare hi _ _ => by simp [Stmt.marks, hi.marks]
  | .assign hn _ hv => by simp [Stmt.marks, hn, hv.marks]
  | .cond ht hb => by simp [Stmt.marks, ht.marks, hb.marks]
  | .loop ht hb => by simp [Stmt.marks, ht.marks, hb.marks]
  | .retVoid _ => rfl
  | .ret hr hv => by simp [Stmt.marks, hr, hv.marks]
  | .eval hv => by simp [Stmt.marks, hv.marks, hv.ty_eq]
  | .block hb => by simp [Stmt.marks, hb.marks]

theorem Stmt.CodedAll.marks {Γ : Context} {n n' : Nat} {ss : List Stmt} {ls : List Line} :
    Stmt.CodedAll p Γ n ss n' ls → Stmt.marksAll Γ ss = Line.marks ls
  | .nil => rfl
  | .cons hs hss => by simp [Stmt.marksAll, hs.marks, hss.marks]

end

/-! ### Functions and programs -/

theorem Function.Coded.code {n n' : Nat} {f : Function} {body : List Line}
    (h : f.Coded p Γ n n' body) :
    f.code Γ n = .ok ⟨Γ.addFunction f, n', Line.code (f.lines body)⟩ := by
  obtain ⟨Γ', hb⟩ := h.body.codeAll
  simp [Function.code, h.enter, hb, Function.lines, Line.code, Except.mapError_ok, bind, Except.bind,
    pure, Except.pure, Function.comp_def]

theorem Function.Coded.marks {n n' : Nat} {f : Function} {body : List Line}
    (h : f.Coded p Γ n n' body) : f.marks Γ = Line.marks (f.lines body) := by
  simp [Function.marks, h.body.marks, Function.lines, Line.marks, Function.comp_def]

namespace Program.CodedFrom

theorem code {Γ : Context} {n : Nat} {ds : Program} {ls : List Line}
    (h : CodedFrom p Γ n ds ls) : ds.codeFrom Γ n = .ok (Line.code ls) := by
  induction h with
  | nil => rfl
  | cons hf _ ih => simp [Program.codeFrom, hf.code, ih, bind, Except.bind, pure, Except.pure]

theorem marks {Γ : Context} {n : Nat} {ds : Program} {ls : List Line}
    (h : CodedFrom p Γ n ds ls) :
    ((ds.functionsFrom Γ).flatMap fun (Γ, f) => f.marks Γ) = Line.marks ls := by
  induction h with
  | nil => rfl
  | cons hf _ ih => simp [Program.functionsFrom, hf.marks, ih]

end Program.CodedFrom

theorem Program.Coded.code_eq {ls : List Line} (h : p.Coded ls) : p.code = .ok (Line.code ls) :=
  CodedFrom.code h

theorem Program.Coded.marks_eq {ls : List Line} (h : p.Coded ls) : p.marks = Line.marks ls :=
  CodedFrom.marks h

end Labyrinth
