import Labyrinth.Proofs.Code.Elaboration

/-!
# Variables with other names

A `Renaming` puts a new name in the place of an old one, and moves what is written to other places in the
text. What is in order in a context is in order in the renamed context (`Context.Renames`) if the new name
is not in use, and its code is the same up to the names of variables. `Stmt.renameAll` renames the
declarations of the old name as well, and `Stmt.renameFreeAll` only the references to the variable that is
declared in front of the statements.
-/

namespace Labyrinth

structure Renaming where
  old : String
  new : String
  /-- Where in the text things stand then. -/
  place : Location → Location

def Renaming.apply (ρ : Renaming) (name : String) : String := if name = ρ.old then ρ.new else name

/-- Only the places change. -/
def Renaming.still (ρ : Renaming) : Renaming := { ρ with old := ρ.new }

/-- The program does not declare the new name. -/
def Renaming.Fresh (ρ : Renaming) (p : Program) : Prop := ρ.new ∉ p.declared.map Prod.fst

variable (ρ : Renaming)

/-! ### Renamed parts of programs -/

namespace Expr

mutual

def rename : Expr → Expr
  | int loc value => int (ρ.place loc) value
  | float loc raw value => float (ρ.place loc) raw value
  | bool loc value => bool (ρ.place loc) value
  | var loc name => var (ρ.place loc) (ρ.apply name)
  | binary loc op left right => binary (ρ.place loc) op (rename left) (rename right)
  | unary loc op operand => unary (ρ.place loc) op (rename operand)
  | call loc name args => call (ρ.place loc) name (renameAll args)

def renameAll : List Expr → List Expr
  | [] => []
  | e :: es => rename e :: renameAll es

end

end Expr

namespace Stmt

mutual

/-- Renames variables and their declarations. -/
def rename : Stmt → Stmt
  | declare loc ty name init => declare (ρ.place loc) ty (ρ.apply name) (init.rename ρ)
  | assign loc name value => assign (ρ.place loc) (ρ.apply name) (value.rename ρ)
  | cond loc test body => cond (ρ.place loc) (test.rename ρ) (renameAll body)
  | loop loc test body => loop (ρ.place loc) (test.rename ρ) (renameAll body)
  | ret loc none => ret (ρ.place loc) none
  | ret loc (some value) => ret (ρ.place loc) (some (value.rename ρ))
  | eval value => eval (value.rename ρ)
  | block loc body => block (ρ.place loc) (renameAll body)

def renameAll : List Stmt → List Stmt
  | [] => []
  | s :: ss => rename s :: renameAll ss

end

def declares (name : String) : Stmt → Bool
  | declare _ _ x _ => x = name
  | _ => false

mutual

/-- Renames the references to a variable that is declared around the statement. -/
def renameFree : Stmt → Stmt
  | declare loc ty name init => declare (ρ.place loc) ty name (init.rename ρ)
  | assign loc name value => assign (ρ.place loc) (ρ.apply name) (value.rename ρ)
  | cond loc test body => cond (ρ.place loc) (test.rename ρ) (renameFreeAll body)
  | loop loc test body => loop (ρ.place loc) (test.rename ρ) (renameFreeAll body)
  | ret loc none => ret (ρ.place loc) none
  | ret loc (some value) => ret (ρ.place loc) (some (value.rename ρ))
  | eval value => eval (value.rename ρ)
  | block loc body => block (ρ.place loc) (renameFreeAll body)

/-- Behind a declaration of the old name, that refers to the new variable. -/
def renameFreeAll : List Stmt → List Stmt
  | [] => []
  | s :: ss => renameFree s :: if s.declares ρ.old then renameAll ρ.still ss else renameFreeAll ss

end

end Stmt

def Instruction.rename : Instruction → Instruction
  | .load name => .load (ρ.apply name)
  | .store name => .store (ρ.apply name)
  | i => i

/-- Two contexts in which the same is known, of the old name in the one and the new in the other. -/
structure Context.Renames (Γ Γ' : Context) : Prop where
  functions : Γ'.functions = Γ.functions
  ret : Γ'.ret = Γ.ret
  inner : ∀ name, name ≠ ρ.new → Γ'.inner.lookup (ρ.apply name) = Γ.inner.lookup name
  lookup : ∀ name, name ≠ ρ.new → Γ'.lookup? (ρ.apply name) = Γ.lookup? name

variable {ρ} {p : Program} {Γ Γ' : Context}

/-! ### Names -/

namespace Renaming

@[simp] theorem apply_old : ρ.apply ρ.old = ρ.new := if_pos rfl

@[simp] theorem still_apply (name : String) : ρ.still.apply name = name := by
  unfold apply
  split
  next h => exact h.symm
  · rfl

theorem apply_of_ne {name : String} (h : name ≠ ρ.old) : ρ.apply name = name := if_neg h

/-- Names that are not the new one are not confused. -/
theorem apply_inj {x y : String} (hx : x ≠ ρ.new) (hy : y ≠ ρ.new) : ρ.apply x = ρ.apply y ↔ x = y := by
  unfold apply
  split <;> split <;> simp_all [eq_comm]

theorem Fresh.ne {x : String} {ty : Ty} (h : ρ.Fresh p) (hx : (x, ty) ∈ p.declared) : x ≠ ρ.new := by
  rintro rfl
  exact h (List.mem_map_of_mem hx)

end Renaming

mutual

/-- Where the old name is not declared again, every occurrence of it refers to the variable around. -/
theorem Stmt.renameFree_eq : ∀ {s : Stmt}, ρ.old ∉ s.declared.map Prod.fst →
    s.renameFree ρ = s.rename ρ
  | declare _ ty name _, h => by
    have hne : name ≠ ρ.old := fun he => h (by simp [declared, he])
    rw [renameFree, rename, Renaming.apply_of_ne hne]
  | assign _ _ _, _ => rfl
  | cond _ _ body, h => by rw [renameFree, rename, Stmt.renameFreeAll_eq h]
  | loop _ _ body, h => by rw [renameFree, rename, Stmt.renameFreeAll_eq h]
  | ret _ none, _ => rfl
  | ret _ (some _), _ => rfl
  | eval _, _ => rfl
  | block _ body, h => by rw [renameFree, rename, Stmt.renameFreeAll_eq h]

theorem Stmt.renameFreeAll_eq : ∀ {ss : List Stmt}, ρ.old ∉ (declaredAll ss).map Prod.fst →
    renameFreeAll ρ ss = renameAll ρ ss
  | [], _ => rfl
  | s :: ss, h => by
    rw [declaredAll, List.map_append, List.mem_append, not_or] at h
    have hdeclares : s.declares ρ.old = false := by
      cases s with
      | declare loc ty name init => exact decide_eq_false fun he => h.1 (by simp [declared, he])
      | _ => rfl
    rw [renameFreeAll, renameAll, Stmt.renameFree_eq h.1, hdeclares, Stmt.renameFreeAll_eq h.2]
    rfl

end

/-! ### Contexts -/

namespace Context

theorem inner_lookup_withVariable (Γ : Context) (x : String) (ty : Ty) (name : String) :
    (Γ.withVariable x ty).inner.lookup name = if name = x then some ty else Γ.inner.lookup name := by
  by_cases h : name = x
  · simp [withVariable, h]
  · simp [withVariable, List.lookup_cons, beq_false_of_ne h, h]

theorem lookup?_withVariable (Γ : Context) (x : String) (ty : Ty) (name : String) :
    (Γ.withVariable x ty).lookup? name = if name = x then some ty else Γ.lookup? name := by
  rw [lookup?, List.findSome?_cons, inner_lookup_withVariable, lookup?, List.findSome?_cons]
  by_cases h : name = x
  · simp [h]
  · simp only [h, if_false]
    rfl

namespace Renames

theorem push (h : Γ.Renames ρ Γ') : Γ.push.Renames ρ Γ'.push where
  functions := h.functions
  ret := h.ret
  inner := fun _ _ => rfl
  lookup := h.lookup

theorem still (ρ : Renaming) (Γ : Context) : Γ.Renames ρ.still Γ where
  functions := rfl
  ret := rfl
  inner := fun name _ => by rw [Renaming.still_apply]
  lookup := fun name _ => by rw [Renaming.still_apply]

theorem start (ρ : Renaming) (Γ : Context) (ty : Ty) :
    (Γ.withVariable ρ.old ty).Renames ρ (Γ.withVariable ρ.new ty) := by
  have happly {name : String} (hne : name ≠ ρ.new) :
      ρ.apply name = ρ.new ↔ name = ρ.old := by
    unfold Renaming.apply
    split <;> simp_all
  refine ⟨rfl, rfl, fun name hne => ?_, fun name hne => ?_⟩
  · simp only [inner_lookup_withVariable, happly hne]
    split
    · rfl
    next h => rw [Renaming.apply_of_ne h]
  · simp only [lookup?_withVariable, happly hne]
    split
    · rfl
    next h => rw [Renaming.apply_of_ne h]

theorem withVariable (h : Γ.Renames ρ Γ') {x : String} (hx : x ≠ ρ.new) (ty : Ty) :
    (Γ.withVariable x ty).Renames ρ (Γ'.withVariable (ρ.apply x) ty) where
  functions := h.functions
  ret := h.ret
  inner := fun name hne => by
    simp only [inner_lookup_withVariable, Renaming.apply_inj hne hx, h.inner name hne]
  lookup := fun name hne => by
    simp only [lookup?_withVariable, Renaming.apply_inj hne hx, h.lookup name hne]

theorem function? (h : Γ.Renames ρ Γ') (name : String) : Γ'.function? name = Γ.function? name := by
  rw [Context.function?, h.functions, Context.function?]

end Renames

end Context

/-! ### Expressions -/

@[simp] theorem Expr.length_renameAll (es : List Expr) : (Expr.renameAll ρ es).length = es.length := by
  induction es with
  | nil => rfl
  | cons e es ih => simp only [renameAll, List.length_cons, ih]

mutual

theorem Expr.Coded.typeOf_rename (hρ : ρ.Fresh p) (hΓ : Γ.Renames ρ Γ') {e : Expr} {ty : Ty}
    {c : List Line} : e.Coded p Γ ty c → (e.rename ρ).typeOf Γ' = .ok ty
  | .int => rfl
  | .float => rfl
  | .bool => rfl
  | .var hx hd => by
    simp only [Expr.rename, Expr.typeOf, Context.resolve, hΓ.lookup _ (hρ.ne hd), hx]
  | .binary hl hr hop => by
    simp only [Expr.rename, Expr.typeOf, hl.typeOf_rename hρ hΓ, hr.typeOf_rename hρ hΓ, hop, bind,
      Except.bind]
    rfl
  | .unary he hop => by
    simp only [Expr.rename, Expr.typeOf, he.typeOf_rename hρ hΓ, hop, bind, Except.bind]
    rfl
  | .call (x := x) hf _ _ ha => by
    simp only [Expr.rename, Expr.typeOf, hΓ.function?, hf, Expr.length_renameAll, ha.length_args, ne_eq,
      not_true_eq_false, if_false, ha.checkArgs_rename hρ hΓ x 1, bind, Except.bind, pure, Except.pure]

theorem Expr.CodedArgs.checkArgs_rename (hρ : ρ.Fresh p) (hΓ : Γ.Renames ρ Γ') {slots : List Slot}
    {args : List Expr} {tys : List Ty} {c : List Line} :
    Expr.CodedArgs p Γ slots args tys c → ∀ (name : String) (index : Nat),
      Expr.checkArgs Γ' name index slots (Expr.renameAll ρ args) = .ok ()
  | .nil, _, _ => rfl
  | .cons (s := s) (t := t) he hfit hv hes, name, index => by
    have hadmits : s.admits t = true := by
      cases s with
      | exact slot => exact hfit
      | any => exact decide_eq_true hv
    simp only [Expr.renameAll, Expr.checkArgs, he.typeOf_rename hρ hΓ, hadmits, if_true,
      hes.checkArgs_rename hρ hΓ, bind, Except.bind]

end

/-! ### Renamed code -/

/-- The code of lines in which variables are renamed. -/
def Line.codeRenamed (ρ : Renaming) (ls : List Line) : Code := (code ls).map (·.rename ρ)

@[simp] theorem Line.codeRenamed_append (c d : List Line) :
    codeRenamed ρ (c ++ d) = codeRenamed ρ c ++ codeRenamed ρ d := by
  simp [codeRenamed]

@[simp] theorem Line.codeRenamed_cons (l : Line) (c : List Line) :
    codeRenamed ρ (l :: c) = l.instruction.rename ρ :: codeRenamed ρ c := rfl

@[simp] theorem Line.codeRenamed_nil : codeRenamed ρ [] = [] := rfl

theorem Line.codeRenamed_still (ρ : Renaming) (c : List Line) : codeRenamed ρ.still c = code c := by
  refine (List.map_congr_left fun i _ => ?_).trans (List.map_id _)
  cases i <;> simp [Instruction.rename]

theorem Line.codeRenamed_widening (slot ty : Ty) :
    codeRenamed ρ (widening slot ty) = code (widening slot ty) := by
  unfold widening
  split <;> rfl

mutual

theorem Expr.Coded.code_rename (hρ : ρ.Fresh p) (hΓ : Γ.Renames ρ Γ') {e : Expr} {ty : Ty}
    {c : List Line} : e.Coded p Γ ty c → (e.rename ρ).code Γ' = .ok (Line.codeRenamed ρ c)
  | .int => rfl
  | .float => rfl
  | .bool => rfl
  | .var _ _ => rfl
  | .binary hl hr _ => by
    simp [Expr.rename, Expr.code, hl.code_rename hρ hΓ, hr.code_rename hρ hΓ, Instruction.rename, bind,
      Except.bind, pure, Except.pure]
  | .unary (o := o) he _ => by
    cases o <;> simp [Expr.rename, Expr.code, he.code_rename hρ hΓ, UnaryOp.instruction,
      Instruction.rename, bind, Except.bind, pure, Except.pure]
  | .call (k := k) hf hc _ ha => by
    have hcheck := hc.checkCall (ρ.place k)
    rw [← ha.length_args] at hcheck
    simp [Expr.rename, Expr.code, hcheck, hΓ.function?, hf, ha.codeArgs_rename hρ hΓ, Instruction.rename,
      bind, Except.bind, pure, Except.pure]

theorem Expr.CodedArgs.codeArgs_rename (hρ : ρ.Fresh p) (hΓ : Γ.Renames ρ Γ') {slots : List Slot}
    {args : List Expr} {tys : List Ty} {c : List Line} :
    Expr.CodedArgs p Γ slots args tys c →
      Expr.codeArgs Γ' slots (Expr.renameAll ρ args) = .ok (Line.codeRenamed ρ c)
  | .nil => rfl
  | .cons (s := .exact _) he _ _ hes => by
    simp [Expr.renameAll, Expr.codeArgs, he.code_rename hρ hΓ, Expr.widen_eq (he.typeOf_rename hρ hΓ),
      hes.codeArgs_rename hρ hΓ, Line.codeRenamed_widening, Slot.into, bind, Except.bind, pure, Except.pure]
  | .cons (s := .any) he _ _ hes => by
    simp [Expr.renameAll, Expr.codeArgs, he.code_rename hρ hΓ, hes.codeArgs_rename hρ hΓ, Slot.into,
      Line.widening, bind, Except.bind, pure, Except.pure]

end

theorem Expr.CodedInto.typeOf_rename (hρ : ρ.Fresh p) (hΓ : Γ.Renames ρ Γ') {e : Expr} {slot : Ty}
    {c : List Line} (h : e.CodedInto p Γ slot c) :
    ∃ ty, (e.rename ρ).typeOf Γ' = .ok ty ∧ slot.accepts ty := by
  obtain ⟨he, hfit⟩ := h
  exact ⟨_, he.typeOf_rename hρ hΓ, hfit⟩

theorem Expr.CodedInto.code_rename (hρ : ρ.Fresh p) (hΓ : Γ.Renames ρ Γ') {e : Expr} {slot : Ty}
    {c : List Line} (h : e.CodedInto p Γ slot c) :
    (e.rename ρ).codeInto Γ' slot = .ok (Line.codeRenamed ρ c) := by
  obtain ⟨he, -⟩ := h
  simp [Expr.codeInto, he.code_rename hρ hΓ, Expr.widen_eq (he.typeOf_rename hρ hΓ),
    Line.codeRenamed_widening, bind, Except.bind]

/-! ### Statements -/

/-- Declarations of the old name count as such of the new one. -/
theorem Stmt.Coded.renames_after (hρ : ρ.Fresh p) (hΓ : Γ.Renames ρ Γ') {n n' : Nat} {s : Stmt}
    {c : List Line} (h : s.Coded p Γ n n' c) : (s.after Γ).Renames ρ ((s.rename ρ).after Γ') := by
  cases h with
  | declare _ _ hd => exact hΓ.withVariable (hρ.ne hd) _
  | _ => exact hΓ

theorem Stmt.checkCondition_eq {construct : Keyword} {test : Expr} (h : test.typeOf Γ = .ok .bool) :
    Stmt.checkCondition Γ construct test = .ok () := by
  simp only [Stmt.checkCondition, h, bind, Except.bind]
  rfl

mutual

theorem Stmt.Coded.check_rename (hρ : ρ.Fresh p) {Γ Γ' : Context} (hΓ : Γ.Renames ρ Γ') {n n' : Nat}
    {s : Stmt} {c : List Line} : s.Coded p Γ n n' c →
      (s.rename ρ).check Γ' = .ok ((s.rename ρ).after Γ')
  | .declare hi hn hd => by
    obtain ⟨ty, hty, hfit⟩ := hi.typeOf_rename hρ hΓ
    simp only [Stmt.rename, Stmt.check, hty, hfit, bind, Except.bind]
    exact Context.declare_eq (by rw [hΓ.inner _ (hρ.ne hd), hn]) _ _
  | .assign hx hd hv => by
    obtain ⟨ty, hty, hfit⟩ := hv.typeOf_rename hρ hΓ
    simp only [Stmt.rename, Stmt.check, Context.resolve, hΓ.lookup _ (hρ.ne hd), hx, hty, hfit, bind,
      Except.bind]
    rfl
  | .cond ht hb => by
    simp only [Stmt.rename, Stmt.check, Stmt.checkCondition_eq (ht.typeOf_rename hρ hΓ),
      hb.checkAll_rename hρ hΓ.push, bind, Except.bind]
    rfl
  | .loop ht hb => by
    simp only [Stmt.rename, Stmt.check, Stmt.checkCondition_eq (ht.typeOf_rename hρ hΓ),
      hb.checkAll_rename hρ hΓ.push, bind, Except.bind]
    rfl
  | .retVoid hr => by
    simp only [Stmt.rename, Stmt.check, hΓ.ret, hr]
    rfl
  | .ret hr hv => by
    obtain ⟨ty, hty, hfit⟩ := hv.typeOf_rename hρ hΓ
    simp only [Stmt.rename, Stmt.check, hΓ.ret, hr, Stmt.returnedType, hty, Ty.mayReturn_eq, hfit, bind,
      Except.bind]
    rfl
  | .eval hv => by
    simp only [Stmt.rename, Stmt.check, hv.typeOf_rename hρ hΓ, bind, Except.bind]
    rfl
  | .block hb => by
    simp only [Stmt.rename, Stmt.check, hb.checkAll_rename hρ hΓ.push, bind, Except.bind]
    rfl

theorem Stmt.CodedAll.checkAll_rename (hρ : ρ.Fresh p) {Γ Γ' : Context} (hΓ : Γ.Renames ρ Γ') {n n' : Nat}
    {ss : List Stmt} {c : List Line} : Stmt.CodedAll p Γ n ss n' c →
      Stmt.checkAll Γ' (Stmt.renameAll ρ ss) = .ok ()
  | .nil => rfl
  | .cons hs hss => by
    simp only [Stmt.renameAll, Stmt.checkAll, hs.check_rename hρ hΓ, bind, Except.bind]
    exact hss.checkAll_rename hρ (hs.renames_after hρ hΓ)

end

mutual

theorem Stmt.Coded.code_rename (hρ : ρ.Fresh p) {Γ Γ' : Context} (hΓ : Γ.Renames ρ Γ') {n n' : Nat}
    {s : Stmt} {c : List Line} : s.Coded p Γ n n' c →
      (s.rename ρ).code Γ' n = .ok ⟨(s.rename ρ).after Γ', n', Line.codeRenamed ρ c⟩
  | .declare (x := x) hi hn hd => by
    have hn' : Γ'.inner.lookup (ρ.apply x) = none := by rw [hΓ.inner _ (hρ.ne hd), hn]
    simp [Stmt.rename, Stmt.code, hi.code_rename hρ hΓ, Context.declare_eq hn', Stmt.after,
      Instruction.rename, Except.mapError_ok, bind, Except.bind, pure, Except.pure]
  | .assign (x := x) (t := t) hx hd hv => by
    have hx' : Γ'.lookup? (ρ.apply x) = some t := by rw [hΓ.lookup _ (hρ.ne hd), hx]
    simp [Stmt.rename, Stmt.code, hv.code_rename hρ hΓ, Context.resolve_eq hx', Stmt.after,
      Instruction.rename, Except.mapError_ok, bind, Except.bind, pure, Except.pure]
  | .cond ht hb => by
    obtain ⟨Δ, hb⟩ := hb.codeAll_rename hρ hΓ.push
    simp [Stmt.rename, Stmt.code, ht.code_rename hρ hΓ, hb, Stmt.after, Instruction.rename, bind,
      Except.bind, pure, Except.pure]
  | .loop ht hb => by
    obtain ⟨Δ, hb⟩ := hb.codeAll_rename hρ hΓ.push
    simp [Stmt.rename, Stmt.code, ht.code_rename hρ hΓ, hb, Stmt.after, Instruction.rename, bind,
      Except.bind, pure, Except.pure]
  | .retVoid _ => rfl
  | .ret hr hv => by
    simp [Stmt.rename, Stmt.code, hΓ.ret, hr, hv.code_rename hρ hΓ, Stmt.after, Instruction.rename, bind,
      Except.bind, pure, Except.pure]
  | .eval hv => by
    simp [Stmt.rename, Stmt.code, hv.code_rename hρ hΓ, Stmt.after, Instruction.rename, bind,
      Except.bind, pure, Except.pure]
  | .block hb => by
    obtain ⟨Δ, hb⟩ := hb.codeAll_rename hρ hΓ.push
    simp [Stmt.rename, Stmt.code, hb, Stmt.after, bind, Except.bind, pure, Except.pure]

theorem Stmt.CodedAll.codeAll_rename (hρ : ρ.Fresh p) {Γ Γ' : Context} (hΓ : Γ.Renames ρ Γ') {n n' : Nat}
    {ss : List Stmt} {c : List Line} : Stmt.CodedAll p Γ n ss n' c →
      ∃ Δ, Stmt.codeAll Γ' n (Stmt.renameAll ρ ss) = .ok ⟨Δ, n', Line.codeRenamed ρ c⟩
  | .nil => ⟨_, rfl⟩
  | .cons hs hss => by
    obtain ⟨Δ, h⟩ := hss.codeAll_rename hρ (hs.renames_after hρ hΓ)
    refine ⟨Δ, ?_⟩
    simp [Stmt.renameAll, Stmt.codeAll, hs.code_rename hρ hΓ, h, bind, Except.bind, pure, Except.pure]

end

theorem Expr.isTrue_rename (e : Expr) : (e.rename ρ).isTrue = e.isTrue := by
  cases e with
  | bool _ value => cases value <;> rfl
  | _ => rfl

mutual

theorem Stmt.returns_rename : ∀ s : Stmt, (s.rename ρ).returns = s.returns
  | declare _ _ _ _ | assign _ _ _ | cond _ _ _ | eval _ | ret _ none | ret _ (some _) => rfl
  | loop _ test body => by
    rw [rename, returns_loop, returns_loop, Expr.isTrue_rename, anyReturns_renameAll body]
  | block _ body => anyReturns_renameAll body

theorem Stmt.anyReturns_renameAll : ∀ ss : List Stmt, anyReturns (renameAll ρ ss) = anyReturns ss
  | [] => rfl
  | s :: ss => by rw [renameAll, anyReturns, returns_rename s, anyReturns_renameAll ss, anyReturns]

end

end Labyrinth
