import Mathlib.Data.List.Perm.Subperm
import Labyrinth.Proofs.Accepted
import Labyrinth.Proofs.Code.Places

/-!
# Compiled code is well formed

The code of a program is a `Routine` for each of its functions, one after the other. Jumps stay inside of
a routine, calls go to built-ins and to routines that do not stand behind, and the labels are numbered from
zero on (`Code.WellFormed`).
-/

namespace Labyrinth

/-- What the code of a function consists of. -/
structure Routine where
  name : String
  params : List String
  body : Code

/-- The head of a routine, its parameters, the last one first, its body and its end. -/
def Routine.code (r : Routine) : Code :=
  [.func r.name r.params.length] ++ r.params.reverse.map .store ++ r.body ++ [.fin]

structure Code.WellFormed (code : Code) (rs : List Routine) : Prop where
  code_eq : code = rs.flatMap Routine.code
  bodies : ∀ r ∈ rs, .fin ∉ r.body ∧ ∀ name arity, .func name arity ∉ r.body
  names_nodup : (rs.map Routine.name).Nodup
  names_free : ∀ r ∈ rs, ∀ b ∈ Builtin.table, b.name ≠ r.name
  /-- The labels are numbered from zero on, and each stands at one place. -/
  labels : ∃ k, (code.filterMap Instruction.label?).Perm ((List.range k).map labelName)
  jumps : ∀ r ∈ rs, ∀ name, .jump name ∈ r.body ∨ .jumpIfFalse name ∈ r.body →
    .label name ∈ r.body
  /-- A call is of a built-in, or of a routine that stands at the place of the caller or in front of it. -/
  calls : ∀ before r after, rs = before ++ r :: after → ∀ name argc, .call name argc ∈ r.body →
    (∃ b ∈ Builtin.table, b.name = name ∧ argc = b.params.length) ∨
      ∃ g ∈ before ++ [r], g.name = name ∧ argc = g.params.length

open Line

variable {p : Program} {Γ : Context} {F : List (String × Signature)} {T : List String}

/-! ### Instructions inside of a body -/

theorem Instruction.label?_eq_some_iff {i : Instruction} {name : String} :
    i.label? = some name ↔ i = .label name := by
  cases i <;> simp [label?]

/-- An instruction of a body jumps to one of the labels `T`, and calls one of the functions `F`. Since a
jump may go ahead, `T` is to be the labels of the whole body. -/
def Instruction.Bound (F : List (String × Signature)) (T : List String) : Instruction → Prop
  | .func _ _ | .fin => False
  | .jump name | .jumpIfFalse name => name ∈ T
  | .call name argc => ∃ g, F.lookup name = some g ∧ argc = g.params.length
  | _ => True

namespace Line

variable {c d : List Line} {l : Line}

def Bound (F : List (String × Signature)) (T : List String) (ls : List Line) : Prop :=
  ∀ l ∈ ls, l.instruction.Bound F T

theorem bound_append (hc : Bound F T c) (hd : Bound F T d) : Bound F T (c ++ d) :=
  List.forall_mem_append.mpr ⟨hc, hd⟩

theorem bound_single (h : l.instruction.Bound F T) : Bound F T [l] :=
  List.forall_mem_singleton.mpr h

theorem bound_widening (slot ty : Ty) : Bound F T (widening slot ty) := by
  unfold widening
  split
  · exact bound_single trivial
  · exact List.forall_mem_nil _

end Line

mutual

theorem Expr.Coded.bound {e : Expr} {ty : Ty} {c : List Line} :
    e.Coded p Γ ty c → Bound Γ.functions T c
  | .int => bound_single trivial
  | .float => bound_single trivial
  | .bool => bound_single trivial
  | .var _ _ => bound_single trivial
  | .binary hl hr _ => bound_append (bound_append hl.bound hr.bound) (bound_single trivial)
  | .unary (o := o) he _ => bound_append he.bound (bound_single (by cases o <;> exact trivial))
  | .call hf _ _ ha => bound_append ha.bound (bound_single ⟨_, hf, ha.length_args⟩)

theorem Expr.CodedArgs.bound {slots : List Slot} {args : List Expr} {tys : List Ty} {c : List Line} :
    Expr.CodedArgs p Γ slots args tys c → Bound Γ.functions T c
  | .nil => List.forall_mem_nil _
  | .cons he _ _ hes => bound_append (bound_append he.bound (bound_widening _ _)) hes.bound

end

theorem Expr.CodedInto.bound {e : Expr} {slot : Ty} {c : List Line} (h : e.CodedInto p Γ slot c) :
    Bound Γ.functions T c := by
  obtain ⟨he, -⟩ := h
  exact bound_append he.bound (bound_widening _ _)

@[simp] theorem Stmt.functions_after (s : Stmt) (Γ : Context) : (s.after Γ).functions = Γ.functions := by
  cases s <;> rfl

mutual

/-- The jumps of a statement go to its own labels. -/
theorem Stmt.Coded.bound {Γ : Context} {n n' : Nat} {s : Stmt} {c : List Line} :
    s.Coded p Γ n n' c → Line.labels c ⊆ T → Bound Γ.functions T c
  | .declare hi _ _, _ => bound_append hi.bound (bound_single trivial)
  | .assign _ _ hv, _ => bound_append hv.bound (bound_single trivial)
  | .cond ht hb, hT => by
    simp only [labels_append, List.append_subset] at hT
    obtain ⟨⟨-, hbody⟩, hend⟩ := hT
    have hjump := bound_single (F := Γ.functions) (l := .taking [.bool] (.jumpIfFalse (labelName n)))
      (hend (List.mem_singleton_self _))
    exact bound_append (bound_append (bound_append ht.bound hjump) (hb.bound hbody)) (bound_single trivial)
  | .loop ht hb, hT => by
    simp only [labels_append, List.append_subset] at hT
    obtain ⟨⟨⟨⟨hstart, -⟩, -⟩, hbody⟩, hend⟩ := hT
    have hjump := bound_single (F := Γ.functions) (l := .taking [.bool] (.jumpIfFalse (labelName (n + 1))))
      (hend (List.mem_singleton_self _))
    have hback := bound_single (F := Γ.functions) (l := .plain (.jump (labelName n)))
      (hstart (List.mem_singleton_self _))
    refine bound_append (bound_append (bound_append (bound_append ?_ ht.bound) hjump) (hb.bound hbody)) ?_
    · exact bound_single trivial
    · exact bound_append hback (bound_single trivial)
  | .retVoid _, _ => bound_single trivial
  | .ret _ hv, _ => bound_append hv.bound (bound_single trivial)
  | .eval hv, _ => bound_append hv.bound (bound_single trivial)
  | .block hb, hT => hb.bound hT

theorem Stmt.CodedAll.bound {Γ : Context} {n n' : Nat} {ss : List Stmt} {c : List Line} :
    Stmt.CodedAll p Γ n ss n' c → Line.labels c ⊆ T → Bound Γ.functions T c
  | .nil, _ => List.forall_mem_nil _
  | .cons (s := s) hs hss, hT => by
    rw [labels_append, List.append_subset] at hT
    have hrest := hss.bound hT.2
    rw [s.functions_after] at hrest
    exact bound_append (hs.bound hT.1) hrest

end

/-! ### The numbers of labels -/

mutual

/-- A label is made for each number that is used up. -/
theorem Stmt.Coded.length_labels {Γ : Context} {n n' : Nat} {s : Stmt} {c : List Line} :
    s.Coded p Γ n n' c → n' = n + (Line.labels c).length
  | .declare hi _ _ => by rw [labels_append, hi.labels_heads.1]; rfl
  | .assign _ _ hv => by rw [labels_append, hv.labels_heads.1]; rfl
  | .cond (d := d) ht hb => by
    have hbody := hb.length_labels
    simp only [labels_append, ht.labels_heads.1, List.length_append]
    show n' = n + (0 + 0 + (Line.labels d).length + 1)
    omega
  | .loop (d := d) ht hb => by
    have hbody := hb.length_labels
    simp only [labels_append, ht.labels_heads.1, List.length_append]
    show n' = n + (1 + 0 + 0 + (Line.labels d).length + 1)
    omega
  | .retVoid _ => rfl
  | .ret _ hv => by rw [labels_append, hv.labels_heads.1]; rfl
  | .eval hv => by rw [labels_append, hv.labels_heads.1]; rfl
  | .block hb => hb.length_labels

theorem Stmt.CodedAll.length_labels {Γ : Context} {n n' : Nat} {ss : List Stmt} {c : List Line} :
    Stmt.CodedAll p Γ n ss n' c → n' = n + (Line.labels c).length
  | .nil => rfl
  | .cons hs hss => by
    rw [labels_append, List.length_append, ← Nat.add_assoc, ← hs.length_labels]
    exact hss.length_labels

end

/-- As many labels as there are numbers have all of them. -/
theorem Line.Numbered.perm {n n' : Nat} {ls : List Line} (h : Numbered n n' ls)
    (hlength : n' = n + (Line.labels ls).length) :
    (Line.labels ls).Perm ((List.range' n (Line.labels ls).length).map labelName) := by
  have hsubset : Line.labels ls ⊆ (List.range' n (Line.labels ls).length).map labelName := by
    intro name hname
    obtain ⟨k, hk, hk', rfl⟩ := h.range name hname
    exact List.mem_map.mpr ⟨k, List.mem_range'_1.mpr ⟨hk, hlength ▸ hk'⟩, rfl⟩
  refine (List.subperm_of_subset h.nodup hsubset).perm_of_length_le ?_
  rw [List.length_map, List.length_range']

/-! ### Routines -/

def Function.routine (f : Function) (body : List Line) : Routine :=
  ⟨f.name, f.params.map (·.name), Line.code body⟩

theorem Function.code_lines (f : Function) (body : List Line) :
    Line.code (f.lines body) = (f.routine body).code := by
  simp [Function.lines, Function.routine, Routine.code, Line.code, Function.comp_def]

/-- The routines of declarations, in front of which the context is `Γ` and the next label has the number
`n`. -/
inductive Program.RoutinesFrom (p : Program) : Context → Nat → List Function → List Routine → Prop
  | nil {Γ : Context} {n : Nat} : RoutinesFrom p Γ n [] []
  | cons {Γ : Context} {n n' : Nat} {f : Function} {fs : List Function} {body : List Line}
      {rs : List Routine} :
      f.Coded p Γ n n' body → RoutinesFrom p (Γ.addFunction f) n' fs rs →
      RoutinesFrom p Γ n (f :: fs) (f.routine body :: rs)

/-- A program that is in order is functions, and its code their routines. -/
theorem Program.CodedFrom.exists_routines {n : Nat} {ds : Program} {ls : List Line}
    (h : CodedFrom p Γ n ds ls) : ∃ fs rs, p.RoutinesFrom Γ n fs rs ∧ ds = fs.map .function ∧
      Line.code ls = rs.flatMap Routine.code ∧ heads ls = rs.map Routine.name := by
  induction h with
  | nil => exact ⟨[], [], .nil, rfl, rfl, rfl⟩
  | @cons Γ n n' f ds body ls hf _ ih =>
    obtain ⟨fs, rs, hrs, rfl, hcode, hheads⟩ := ih
    refine ⟨f :: fs, f.routine body :: rs, .cons hf hrs, rfl, ?_, ?_⟩
    · rw [Line.code_append, f.code_lines, hcode, List.flatMap_cons]
    · rw [heads_append, Function.heads_lines _ hf.body.heads, hheads]
      rfl

namespace Program.RoutinesFrom

variable {n : Nat} {fs : List Function} {rs : List Routine} {r : Routine}

theorem exists_coded (h : p.RoutinesFrom Γ n fs rs) (hr : r ∈ rs) :
    ∃ Δ k k', ∃ (f : Function) (body : List Line), f.Coded p Δ k k' body ∧ r = f.routine body := by
  induction h with
  | nil => cases hr
  | cons hf _ ih =>
    rcases List.mem_cons.mp hr with rfl | hr
    · exact ⟨_, _, _, _, _, hf, rfl⟩
    · exact ih hr

theorem names_eq (h : p.RoutinesFrom Γ n fs rs) :
    rs.map (fun r => (r.name, r.params)) = fs.map fun f => (f.name, f.params.map (·.name)) := by
  induction h with
  | nil => rfl
  | cons _ _ ih => rw [List.map_cons, List.map_cons, ih]; rfl

theorem labels_perm (h : p.RoutinesFrom Γ n fs rs) : ∃ k,
    ((rs.flatMap Routine.code).filterMap Instruction.label?).Perm ((List.range' n k).map labelName) := by
  induction h with
  | nil => exact ⟨0, .refl _⟩
  | @cons Γ n n' f fs body rs hf _ ih =>
    obtain ⟨k, ih⟩ := ih
    have hlength := hf.body.length_labels
    have hbody := hf.body.numbered.perm hlength
    have hlabels : (f.routine body).code.filterMap Instruction.label? = Line.labels body := by
      rw [← f.code_lines]
      exact f.labels_lines body
    refine ⟨(Line.labels body).length + k, ?_⟩
    rw [List.flatMap_cons, List.filterMap_append, hlabels, ← List.range'_append_1, List.map_append,
      ← hlength]
    exact hbody.append ih

/-- What a body calls is known in front of the routines, or is one of them that does not stand behind. -/
theorem call_cases (h : p.RoutinesFrom Γ n fs rs) {before after : List Routine}
    (hrs : rs = before ++ r :: after) {name : String} {argc : Nat} (hcall : .call name argc ∈ r.body) :
    (∃ g, Γ.function? name = some g ∧ argc = g.params.length) ∨
      ∃ g ∈ before ++ [r], g.name = name ∧ argc = g.params.length := by
  induction h generalizing before with
  | nil => cases before <;> cases hrs
  | @cons Γ n n' f fs body rs hf _ ih =>
    have hslots : f.signature.params.length = (f.routine body).params.length := by
      simp [Function.signature, Function.routine]
    rcases List.cons_eq_append_iff.mp hrs with ⟨rfl, hr⟩ | ⟨before, rfl, hrest⟩
    · obtain ⟨rfl, rfl⟩ := List.cons.inj hr
      obtain ⟨l, hl, hi⟩ := List.mem_map.mp hcall
      have hbound := hf.body.bound (List.Subset.refl _) l hl
      rw [hi] at hbound
      obtain ⟨g, hg, hargc⟩ := hbound
      rcases Context.function?_addFunction_eq_some hg with ⟨rfl, rfl⟩ | hg
      · exact .inr ⟨_, List.mem_singleton_self _, rfl, hargc.trans hslots⟩
      · exact .inl ⟨g, hg, hargc⟩
    · rcases ih hrest with ⟨g, hg, hargc⟩ | ⟨g, hg, h⟩
      · rcases Context.function?_addFunction_eq_some hg with ⟨rfl, rfl⟩ | hg
        · exact .inr ⟨_, List.mem_cons_self, rfl, hargc.trans hslots⟩
        · exact .inl ⟨g, hg, hargc⟩
      · exact .inr ⟨g, List.mem_cons_of_mem _ hg, h⟩

end Program.RoutinesFrom

/-- The code of a program that is in order is well formed. -/
theorem Program.Coded.exists_wellFormed {ls : List Line} (h : p.Coded ls) :
    ∃ (fs : List Function) (rs : List Routine), p = fs.map .function ∧
      rs.map (fun r => (r.name, r.params)) = fs.map (fun f => (f.name, f.params.map (·.name))) ∧
      (Line.code ls).WellFormed rs := by
  obtain ⟨fs, rs, hrs, hp, hcode, hheads⟩ := CodedFrom.exists_routines h
  have hbound {r : Routine} (hr : r ∈ rs) :
      ∃ F, ∀ i ∈ r.body, i.Bound F (r.body.filterMap Instruction.label?) := by
    obtain ⟨Δ, k, k', f, body, hf, rfl⟩ := hrs.exists_coded hr
    refine ⟨(Δ.inside f).functions, fun i hi => ?_⟩
    obtain ⟨l, hl, rfl⟩ := List.mem_map.mp hi
    exact hf.body.bound (List.Subset.refl _) l hl
  refine ⟨fs, rs, hp, hrs.names_eq, ?_⟩
  constructor
  case code_eq => exact hcode
  case bodies =>
    intro r hr
    obtain ⟨F, hbound⟩ := hbound hr
    exact ⟨hbound .fin, fun name arity => hbound (.func name arity)⟩
  case names_nodup => exact hheads ▸ (CodedFrom.fresh_heads h).1
  case names_free =>
    intro r hr b hb hname
    obtain ⟨Δ, k, k', f, body, hf, rfl⟩ := hrs.exists_coded hr
    exact List.find?_eq_none.mp hf.unnamed b hb (decide_eq_true hname)
  case labels =>
    obtain ⟨k, hperm⟩ := hrs.labels_perm
    refine ⟨k, ?_⟩
    rw [hcode, List.range_eq_range']
    exact hperm
  case jumps =>
    intro r hr name hjump
    obtain ⟨F, hbound⟩ := hbound hr
    have hmem : name ∈ r.body.filterMap Instruction.label? := by
      rcases hjump with hjump | hjump
      · exact hbound _ hjump
      · exact hbound _ hjump
    obtain ⟨i, hi, hlabel⟩ := List.mem_filterMap.mp hmem
    exact Instruction.label?_eq_some_iff.mp hlabel ▸ hi
  case calls =>
    intro before r after hsplit name argc hcall
    rcases hrs.call_cases hsplit hcall with ⟨g, hg, hargc⟩ | hmem
    · obtain ⟨b, hb, he⟩ := List.mem_map.mp (mem_of_lookup hg)
      cases he
      refine .inl ⟨b, hb, rfl, ?_⟩
      rw [hargc, Builtin.signature, List.length_map]
    · exact .inr hmem

namespace Source

variable {source : String} {code : Code}

/-- The code of an accepted text is well formed: it is a routine for each of the functions, in their
order, with their names and parameters. -/
theorem compile_wellFormed (hc : compile source = .ok code) :
    ∃ (fs : List Function) (rs : List Routine), checked source = .ok (fs.map .function) ∧
      rs.map (fun r => (r.name, r.params)) = fs.map (fun f => (f.name, f.params.map (·.name))) ∧
      code.WellFormed rs := by
  obtain ⟨p, hp, -⟩ := Except.bind_eq_ok.mp hc
  obtain ⟨ls, hls, rfl⟩ := exists_coded hp hc
  obtain ⟨fs, rs, rfl, hnames, hrs⟩ := hls.exists_wellFormed
  exact ⟨fs, rs, hp, hnames, hrs⟩

theorem compile_wellFormed_sample : ∃ code rs, compile sample = .ok code ∧ code.WellFormed rs ∧
    ∃ r ∈ rs, r.name = "main" ∧ r.params = [] := by
  obtain ⟨p, code, hp, hc, -, -, ⟨g, hg, hname⟩, hparams⟩ := exists_sample
  obtain ⟨fs, rs, hfs, hrs, hcode⟩ := compile_wellFormed hc
  obtain rfl : p = fs.map .function := Except.ok.inj (hp.symm.trans hfs)
  obtain ⟨f, hf, hfg⟩ := List.mem_map.mp hg
  obtain rfl : f = g := Decl.function.inj hfg
  have hmem : (f.name, f.params.map (·.name)) ∈ rs.map fun r => (r.name, r.params) :=
    hrs ▸ List.mem_map.mpr ⟨f, hf, rfl⟩
  rw [hparams f hg hname, hname] at hmem
  obtain ⟨r, hr, hsame⟩ := List.mem_map.mp hmem
  obtain ⟨hmain, hnone⟩ := Prod.mk.inj hsame
  exact ⟨code, rs, hc, hcode, r, hr, hmain, hnone⟩

end Source

end Labyrinth
