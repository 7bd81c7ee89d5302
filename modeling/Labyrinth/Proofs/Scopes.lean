import Labyrinth.Proofs.Renaming.Twins

/-!
# The names of variables in blocks

All variables of one name share a place of the store, so a variable of a block is independent of one that
it hides only in the analyser. A variable that hides none may have another name, together with those that
hide it inside of its scope; one that hides another may not.
-/

namespace Labyrinth

open Machine

/-- A declaration in statements. -/
structure Declaration (ss : List Stmt) where
  spot : Spot
  loc : Location
  ty : Ty
  name : String
  init : Expr
  /-- The statements behind it in its block. -/
  rest : List Stmt
  fill_eq : ss = spot.fill (.declare loc ty name init :: rest)

mutual

def Stmt.declarations (ss : List Stmt) : (s : Stmt) → List (Declaration (s :: ss))
  | declare loc ty name init => [⟨.here, loc, ty, name, init, ss, rfl⟩]
  | cond loc test body => (Stmt.declarationsAll body).map fun d =>
      { d with spot := .cond loc test d.spot ss, fill_eq := congrArg (cond loc test · :: ss) d.fill_eq }
  | loop loc test body => (Stmt.declarationsAll body).map fun d =>
      { d with spot := .loop loc test d.spot ss, fill_eq := congrArg (loop loc test · :: ss) d.fill_eq }
  | block loc body => (Stmt.declarationsAll body).map fun d =>
      { d with spot := .block loc d.spot ss, fill_eq := congrArg (block loc · :: ss) d.fill_eq }
  | assign _ _ _ | ret _ _ | eval _ => []

/-- The declarations in statements, in the order of the text. -/
def Stmt.declarationsAll : (ss : List Stmt) → List (Declaration ss)
  | [] => []
  | s :: ss => Stmt.declarations ss s ++ (Stmt.declarationsAll ss).map fun d =>
      { d with spot := .next s d.spot, fill_eq := congrArg (s :: ·) d.fill_eq }

end

namespace Declaration

def naming {ss : List Stmt} (d : Declaration ss) (y : String) (place : Location → Location) : Renaming :=
  ⟨d.name, y, place⟩

variable (f : Function) (d : Declaration f.body) (y : String) (place : Location → Location)

/-- What is known in front of it, if the function is the first of its program. -/
def context : Context := d.spot.context (Context.initial.inside f)

/-- A variable of the name is visible in front of it. -/
def Hides : Prop := (d.context f).lookup? d.name ≠ none

instance : Decidable (d.Hides f) := inferInstanceAs (Decidable (_ ≠ _))

/-- The function with the name `y` in the declaration, in front of other statements. -/
def withName (rest : List Stmt) : Function where
  loc := place f.loc
  ret := f.ret
  name := f.name
  params := f.params.map fun x => { x with loc := place x.loc }
  body := (d.spot.rename (d.naming y place).still).fill
    (.declare (place d.loc) d.ty y (d.init.rename (d.naming y place).still) :: rest)

/-- The function with the name `y` for the variable, and for those that hide it. -/
def renamed : Function := d.withName f y place (Stmt.renameAll (d.naming y place) d.rest)

/-- The function with the name `y` in the declaration and in the references to it. -/
def renamedExactly : Function := d.withName f y place (Stmt.renameFreeAll (d.naming y place) d.rest)

variable {f d y place}

/-- That is the same where no other variable hides it. -/
theorem renamedExactly_eq (h : d.name ∉ (Stmt.declaredAll d.rest).map Prod.fst) :
    d.renamedExactly f y place = d.renamed f y place := by
  rw [renamedExactly, Stmt.renameFreeAll_eq (ρ := d.naming y place) h, renamed]

/-! ### The parts of its code -/

/-- The lines in front of a declaration, those of its first value, those of its scope and those behind
it in a function of the program. -/
structure Coded (f : Function) (p : Program) (d : Declaration f.body) (n n₁ n₂ : Nat)
    (before c e after : List Line) : Prop where
  function : f.Coded p .initial 0 n (before ++ (c ++ [.taking [d.ty] (.store d.name)] ++ e) ++ after)
  spot : d.spot.Coded p (Context.initial.inside f) 0 n₁ n₂ n before after
  init : d.init.CodedInto p (d.context f) d.ty c
  mem : (d.name, d.ty) ∈ p.declared
  rest : Stmt.CodedAll p ((d.context f).withVariable d.name d.ty) n₁ d.rest n₂ e

/-- The lines of the function up to the first value of the variable. -/
def front (f : Function) (before c : List Line) : List Line :=
  [.plain (.func f.name f.params.length)] ++
    f.params.reverse.map (fun x => .taking [x.ty] (.store x.name)) ++ before ++ c

/-- The lines from there on to the end of the scope. -/
def scope {ss : List Stmt} (d : Declaration ss) (e : List Line) : List Line :=
  .taking [d.ty] (.store d.name) :: e

def renamedCode (f : Function) (d : Declaration f.body) (y : String) (place : Location → Location)
    (before c e after : List Line) : Code :=
  Line.code (front f before c) ++ Line.codeRenamed (d.naming y place) (d.scope e) ++
    Line.code (after ++ [.plain .fin])

theorem lines_eq (d : Declaration f.body) (before c e after : List Line) :
    f.lines (before ++ (c ++ [.taking [d.ty] (.store d.name)] ++ e) ++ after) =
      front f before c ++ d.scope e ++ (after ++ [.plain .fin]) := by
  simp [Function.lines, front, scope]

variable {p : Program} {n n₁ n₂ : Nat} {before c e after ls : List Line}

theorem exists_coded (hp : Program.Coded [.function f] ls) (d : Declaration f.body) :
    ∃ n n₁ n₂ before c e after, d.Coded f [.function f] n n₁ n₂ before c e after ∧
      ls = f.lines (before ++ (c ++ [.taking [d.ty] (.store d.name)] ++ e) ++ after) := by
  cases hp with
  | @cons _ _ n' _ _ body _ hf hrest =>
    cases hrest
    have hbody := hf.body
    rw [d.fill_eq] at hbody
    obtain ⟨n₁, n₂, before, lines, after, hspot, hlines, rfl⟩ := Spot.exists_coded hbody
    cases hlines with
    | cons hs hrest =>
      cases hs with
      | declare hinit hnone hd =>
        exact ⟨_, _, _, _, _, _, _, ⟨hf, hspot, hinit, hd, hrest⟩, List.append_nil _⟩

theorem declareParams_place {xs : List Param} {Γ Γ' : Context} (h : Γ.declareParams xs = .ok Γ') :
    Γ.declareParams (xs.map fun x => { x with loc := place x.loc }) = .ok Γ' := by
  induction xs generalizing Γ with
  | nil => exact h
  | cons x xs ih =>
    obtain ⟨hv, hn, h⟩ := Context.declareParams_cons h
    simp only [List.map_cons, Context.declareParams, hv, if_false, Context.declare_eq hn, bind,
      Except.bind]
    exact ih h

theorem enter_withName {Γ Γ' : Context} (h : Γ.enter f = .ok Γ') (rest : List Stmt) :
    Γ.enter (d.withName f y place rest) = .ok Γ' := by
  have hadd : Γ.addFunction (d.withName f y place rest) = Γ.addFunction f := by
    simp [Context.addFunction, withName, Function.comp_def]
  rw [Context.enter, hadd]
  exact declareParams_place h

namespace Coded

variable (h : d.Coded f p n n₁ n₂ before c e after) (hy : (d.naming y place).Fresh p)

include h hy

/-- The new name is not in use in front of the declaration. -/
theorem lookup_new : (d.context f).inner.lookup y = none := by
  have hwithin := h.spot.within
    (Context.Within.initial.inside h.function.mem h.function.fresh h.function.params)
  rw [Option.eq_none_iff_forall_ne_some]
  intro ty hlookup
  exact hy (List.mem_map_of_mem (hwithin.scopes _ (List.mem_cons_self ..) _ (mem_of_lookup hlookup)))

theorem checkAll_scope : Stmt.checkAll (d.context f)
    (.declare (place d.loc) d.ty y (d.init.rename (d.naming y place).still) ::
      Stmt.renameAll (d.naming y place) d.rest) = .ok () := by
  obtain ⟨ty, hty, hfit⟩ := h.init.typeOf_rename (ρ := (d.naming y place).still) hy (.still _ _)
  have hdeclare := Context.declare_eq (h.lookup_new hy) (place d.loc) d.ty
  simp only [Stmt.checkAll, Stmt.check, hty, hfit, hdeclare, if_true, bind, Except.bind]
  exact h.rest.checkAll_rename hy (.start (d.naming y place) (d.context f) d.ty)

theorem codeAll_scope : ∃ Δ, Stmt.codeAll (d.context f) n₁
    (.declare (place d.loc) d.ty y (d.init.rename (d.naming y place).still) ::
      Stmt.renameAll (d.naming y place) d.rest) =
    .ok ⟨Δ, n₂, Line.code c ++ Line.codeRenamed (d.naming y place) (d.scope e)⟩ := by
  obtain ⟨Δ, hrest⟩ := h.rest.codeAll_rename hy (.start (d.naming y place) (d.context f) d.ty)
  have hinit := h.init.code_rename (ρ := (d.naming y place).still) hy (.still _ _)
  rw [Line.codeRenamed_still] at hinit
  have hdeclare := Context.declare_eq (h.lookup_new hy) (place d.loc) d.ty
  have hstore : (Instruction.store d.name).rename (d.naming y place) = .store y :=
    congrArg _ (Renaming.apply_old (ρ := d.naming y place))
  refine ⟨Δ, ?_⟩
  have hrest : Stmt.codeAll ((d.context f).withVariable y d.ty) n₁
      (Stmt.renameAll (d.naming y place) d.rest) = _ := hrest
  simp [Stmt.codeAll, Stmt.code, hinit, hdeclare, hrest, hstore, scope, Except.mapError_ok, bind,
    Except.bind, pure, Except.pure]

theorem check_renamed : Program.check [.function (d.renamed f y place)] = .ok () := by
  have hbody : Stmt.checkAll (Context.initial.inside f) (d.renamed f y place).body = .ok () := by
    refine h.spot.checkAll_fill (ρ := (d.naming y place).still) hy (.still _ _) ?_
    rw [Spot.context_still]
    exact h.checkAll_scope hy
  have hreturns : (d.renamed f y place).returns = f.returns := by
    have hscope : Stmt.anyReturns
        (.declare (place d.loc) d.ty y (d.init.rename (d.naming y place).still) ::
          Stmt.renameAll (d.naming y place) d.rest) =
        Stmt.anyReturns (.declare d.loc d.ty d.name d.init :: d.rest) :=
      Stmt.anyReturns_renameAll d.rest
    rw [Function.returns, Function.returns, d.fill_eq]
    exact Spot.anyReturns_fill hscope d.spot
  have hret : ¬((d.renamed f y place).ret ≠ .void ∧ !(d.renamed f y place).returns) := by
    rintro ⟨hv, hr⟩
    rw [hreturns, show f.returns = true from h.function.returns hv] at hr
    cases hr
  have hfresh : ¬(Context.initial.function? (d.renamed f y place).name).isSome := by
    rw [show Context.initial.function? (d.renamed f y place).name = none from h.function.fresh]
    exact Bool.false_ne_true
  have henter : Context.initial.enter (d.renamed f y place) = .ok (Context.initial.inside f) :=
    enter_withName h.function.enter _
  simp only [Program.check, Program.checkFrom, Decl.check, Function.check, if_neg hfresh, henter, hbody,
    if_neg hret, bind, Except.bind]
  rfl

theorem code_renamed : Program.code [.function (d.renamed f y place)] =
    .ok (d.renamedCode f y place before c e after) := by
  obtain ⟨Δ, hscope⟩ := h.codeAll_scope hy
  rw [context, ← Spot.context_still (ρ := d.naming y place)] at hscope
  obtain ⟨Δ', hbody⟩ := h.spot.codeAll_fill (ρ := (d.naming y place).still) hy (.still _ _) hscope
  have henter : Context.initial.enter (d.renamed f y place) = .ok (Context.initial.inside f) :=
    enter_withName h.function.enter _
  have hbody : Stmt.codeAll (Context.initial.inside f) 0 (d.renamed f y place).body = _ := hbody
  simp only [Program.code, Program.codeFrom, Function.code, henter, hbody, Line.codeRenamed_still,
    Except.mapError_ok, bind, Except.bind, pure, Except.pure]
  simp [renamedCode, front, renamed, withName, Line.code, Function.comp_def]

end Coded

/-- A list in which a part is changed. -/
theorem getElem?_append_map {α : Type} (g : α → α) (as bs cs : List α) (q : Nat) :
    (as ++ bs.map g ++ cs)[q]? = (as ++ bs ++ cs)[q]?.map fun i =>
      if as.length ≤ q ∧ q < as.length + bs.length then g i else i := by
  have hkeep (o : Option α) (hq : ¬(as.length ≤ q ∧ q < as.length + bs.length)) :
      o = o.map fun i => if as.length ≤ q ∧ q < as.length + bs.length then g i else i := by
    simp only [if_neg hq, Option.map_id']
  rw [List.append_assoc, List.append_assoc]
  rcases Nat.lt_or_ge q as.length with hlt | hge
  · rw [List.getElem?_append_left hlt, List.getElem?_append_left hlt]
    exact hkeep _ (by omega)
  · obtain ⟨k, rfl⟩ := Nat.exists_eq_add_of_le hge
    simp only [List.getElem?_append_right hge, Nat.add_sub_cancel_left]
    rcases Nat.lt_or_ge k bs.length with hlt | hge
    · rw [List.getElem?_append_left (by simpa using hlt), List.getElem?_append_left hlt,
        List.getElem?_map]
      simp [hlt]
    · rw [List.getElem?_append_right (by simpa using hge), List.getElem?_append_right hge,
        List.length_map]
      exact hkeep _ (by omega)

/-- The code with the new name is a twin of the code. -/
theorem Coded.twins (y : String) (place : Location → Location) (hp : Program.Coded [.function f] ls)
    (h : d.Coded f [.function f] n n₁ n₂ before c e after)
    (hls : ls = f.lines (before ++ (c ++ [.taking [d.ty] (.store d.name)] ++ e) ++ after))
    (hhides : ¬d.Hides f) :
    ∃ V, Code.Twins [.function f] (d.naming y place) (Line.code ls)
      (d.renamedCode f y place before c e after) V := by
  have hx : (d.context f).lookup? d.name = none := Classical.not_not.mp hhides
  have hl : StandsAt ls 0 (f.lines (before ++ (c ++ [.taking [d.ty] (.store d.name)] ++ e) ++ after)) :=
    hls ▸ .whole ls
  have hfront : (front f before c).length = 0 + 1 + f.params.length + before.length + c.length := by
    simp [front]
    omega
  have hscope : (d.scope e).length = e.length + 1 := rfl
  -- The places from the declaration to the end of its scope.
  let R (q : Nat) : Bool :=
    (front f before c).length ≤ q ∧ q < (front f before c).length + (d.scope e).length
  have hout {lo hi : Nat} (hq : ∀ q, lo ≤ q → q < hi →
      ¬((front f before c).length ≤ q ∧ q < (front f before c).length + (d.scope e).length)) :
      Throughout R lo hi false := fun q hlo hhi => decide_eq_false (hq q hlo hhi)
  have hbody := hl.left.right.left.right
  simp only [List.length_append, List.length_singleton, List.length_map, List.length_reverse,
    ← Nat.add_assoc] at hbody
  obtain ⟨W, hW⟩ := Line.Viewed.scope (R := R) hp h.init hx h.mem h.rest hbody (hout (by omega))
    fun q hlo hhi => decide_eq_true (by omega)
  obtain ⟨V, hV⟩ := h.function.viewed (R := R) hp h.spot hx hl (hout (by omega))
    (hout (by simp only [List.length_append, List.length_singleton]; omega))
    ⟨W, by simpa only [List.length_append, List.length_singleton, ← Nat.add_assoc] using hW⟩
  have hlength : 0 + 1 + f.params.length + before.length +
      (c ++ [Line.taking [d.ty] (.store d.name)] ++ e).length + after.length + 1 = ls.length := by
    rw [hls]
    simp [Function.lines]
    omega
  rw [hlength] at hV
  have hlt {q : Nat} {i : Instruction} (hi : (Line.code ls)[q]? = some i) : q < ls.length := by
    obtain ⟨hq, -⟩ := List.getElem?_eq_some_iff.mp hi
    rwa [Line.length_code] at hq
  refine ⟨V, fun q => ?_, fun q i hi => ?_, fun q q' i hi hflow => ?_, fun name q hentry => ?_⟩
  · have hcode : Line.code ls = Line.code (front f before c) ++ Line.code (d.scope e) ++
        Line.code (after ++ [.plain .fin]) := by
      rw [hls, lines_eq, Line.code_append, Line.code_append]
    rw [renamedCode, Line.codeRenamed, getElem?_append_map, ← hcode]
    cases hi : (Line.code ls)[q]? with
    | none => rfl
    | some i =>
      simp only [Option.map_some, Line.length_code, hV.renames q (Nat.zero_le q) (hlt hi), R,
        decide_eq_true_eq]
  · exact hV.fits q i (Nat.zero_le q) (hlt hi) hi
  · exact (hV.flows q q' i (Nat.zero_le q) (hlt hi) hi hflow).2.2
  · obtain ⟨g, hg, -, rfl⟩ := hp.exists_segment_of_entry hentry
    obtain rfl : g = ⟨.initial, f, 0⟩ := List.mem_singleton.mp hg
    exact hV.below_entry (Line.code_at hl) (by rw [← hlength]; omega)

end Declaration

namespace Source

variable {source : String} {f : Function} {code : Code}

/-- A variable that hides none may have another name, and so may those that hide it: the function is
accepted with that name, and its code does the same in every maze. If no variable hides it, then just the
declaration and the references to it are changed. -/
theorem run_renamed (hp : checked source = .ok [.function f]) (hc : compile source = .ok code)
    (hcallees : ∀ name ∈ Program.callees [.function f], (Builtin.find? name).isSome)
    (d : Declaration f.body) (hhides : ¬d.Hides f) (y : String)
    (hy : y ∉ (Program.declared [.function f]).map Prod.fst) (place : Location → Location) :
    (d.name ∉ (Stmt.declaredAll d.rest).map Prod.fst →
      d.renamedExactly f y place = d.renamed f y place) ∧
    ∃ code', Program.check [.function (d.renamed f y place)] = .ok () ∧
      Program.code [.function (d.renamed f y place)] = .ok code' ∧
      (∀ source', program source' = .ok [.function (d.renamed f y place)] → compile source' = .ok code') ∧
      ∀ maze settings,
        (code'.run maze settings).map Outcome.bare = (code.run maze settings).map Outcome.bare := by
  obtain ⟨ls, hls, rfl⟩ := exists_coded hp hc
  obtain ⟨n, n₁, n₂, before, c, e, after, hd, hlines⟩ := Declaration.exists_coded hls d
  obtain ⟨V, htwins⟩ := hd.twins y place hls hlines hhides
  have hcheck : Program.check [.function (d.renamed f y place)] = .ok () := hd.check_renamed hy
  have hcode : Program.code [.function (d.renamed f y place)] = .ok _ := hd.code_renamed hy
  refine ⟨Declaration.renamedExactly_eq, _, hcheck, hcode, fun source' hsource => ?_,
    fun maze settings => ?_⟩
  · simp only [compile, checked, hsource, hcheck, hcode, bind, Except.bind, Except.mapError, pure,
      Except.pure]
  · exact htwins.run_bare hls (solid_of_checked hp) hcallees hy maze settings

def shadowing : String :=
  "func int main() { { int x = 1; { int x = 2; } return x; } }"

/-- The result of a program with one function, as a text. -/
def resultText? (f : Function) (maze : Maze) : Option String := do
  let code ← (Program.code [.function f]).toOption
  let o ← (code.run maze {}).toOption
  o.result.map Value.text

def onlyFunction? : Program → Option Function
  | [] => none
  | .stmt _ :: _ => none
  | .function f :: [] => some f
  | .function _ :: _ :: _ => none

theorem onlyFunction?_eq_some {p : Program} (h : onlyFunction? p = some f) : p = [.function f] := by
  unfold onlyFunction? at h
  split at h <;> cases h
  rfl

/-- In this text there are a variable that hides none and one that hides it. -/
theorem exists_shadowing : ∃ f code, checked shadowing = .ok [.function f] ∧
    compile shadowing = .ok code ∧ f.name = "main" ∧ f.params.isEmpty ∧
    (∀ name ∈ Program.callees [.function f], (Builtin.find? name).isSome) ∧
    "y" ∉ (Program.declared [.function f]).map Prod.fst ∧ resultText? f .sample = some "2" ∧
    ∃ d d' : Declaration f.body, d.spot.nested ∧ ¬d.Hides f ∧
      resultText? (d.renamedExactly f "y" id) .sample = some "1" ∧ d'.spot.nested ∧ d'.Hides f ∧
      resultText? (d'.renamedExactly f "y" id) .sample = some "1" := by
  obtain ⟨p, hp, h⟩ := Except.any_toOption (x := checked shadowing) (q := fun p =>
    (onlyFunction? p).any fun f => f.name = "main" ∧ f.params.isEmpty ∧
      (∀ name ∈ Program.callees [.function f], (Builtin.find? name).isSome) ∧
      "y" ∉ (Program.declared [.function f]).map Prod.fst ∧ resultText? f .sample = some "2" ∧
      ∃ d ∈ Stmt.declarationsAll f.body, ∃ d' ∈ Stmt.declarationsAll f.body, d.spot.nested ∧ ¬d.Hides f ∧
        resultText? (d.renamedExactly f "y" id) .sample = some "1" ∧ d'.spot.nested ∧ d'.Hides f ∧
        resultText? (d'.renamedExactly f "y" id) .sample = some "1") (by decide +kernel)
  obtain ⟨code, hc, -⟩ := Except.any_toOption (q := fun _ => true) (x := compile shadowing)
    (by decide +kernel)
  obtain ⟨f, hf, h⟩ := (Option.any_eq_true _ _).mp h
  obtain rfl := onlyFunction?_eq_some hf
  obtain ⟨hname, hparams, hcallees, hy, hresult, d, -, d', -, h⟩ := of_decide_eq_true h
  exact ⟨f, code, hp, hc, hname, hparams, hcallees, hy, hresult, d, d', h⟩

theorem run_renamed_sample : ∃ f code, ∃ d : Declaration f.body, checked shadowing = .ok [.function f] ∧
    compile shadowing = .ok code ∧ d.spot.nested ∧ ¬d.Hides f ∧
    ∃ code', Program.code [.function (d.renamed f "y" id)] = .ok code' ∧
      (code'.run .sample {}).map Outcome.bare = (code.run .sample {}).map Outcome.bare := by
  obtain ⟨f, code, hp, hc, -, -, hcallees, hy, -, d, -, hnested, hhides, -⟩ := exists_shadowing
  obtain ⟨-, code', -, hcode, -, hrun⟩ := run_renamed hp hc hcallees d hhides "y" hy id
  exact ⟨f, code, d, hp, hc, hnested, hhides, code', hcode, hrun .sample {}⟩

/-- The variable that hides another may not have another name, nor may the one that is hidden have one
alone: what is written to the one inside is read as the one outside. -/
theorem run_shadowing : ∃ f code, checked shadowing = .ok [.function f] ∧ compile shadowing = .ok code ∧
    f.name = "main" ∧ f.params.isEmpty ∧
    (∀ name ∈ Program.callees [.function f], (Builtin.find? name).isSome) ∧
    "y" ∉ (Program.declared [.function f]).map Prod.fst ∧ resultText? f .sample = some "2" ∧
    ∃ d d' : Declaration f.body,
      d.spot.nested ∧ resultText? (d.renamedExactly f "y" id) .sample = some "1" ∧
      d'.spot.nested ∧ resultText? (d'.renamedExactly f "y" id) .sample = some "1" ∧ d'.Hides f := by
  obtain ⟨f, code, hp, hc, hname, hparams, hcallees, hy, hresult, d, d', hnested, -, h, hnested', hhides,
    h'⟩ := exists_shadowing
  exact ⟨f, code, hp, hc, hname, hparams, hcallees, hy, hresult, d, d', hnested, h, hnested', h', hhides⟩

end Source

end Labyrinth
