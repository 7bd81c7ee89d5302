import Labyrinth.Proofs.Code.Places

/-!
# Sites

A walk over a program gives the sites of its expressions, statements and bodies: the context in front
of them and the places between which their code stands (`Program.sites`). The lengths come from the
marks, so the walk needs no labels; that the code does stand there is `Program.Coded.stands`.
-/

namespace Labyrinth

/-- A part of a program that has code of its own. -/
inductive Part where
  /-- An expression, and the slot that it fills if it fills one. -/
  | expr (slot : Option Ty) (e : Expr)
  | stmt (s : Stmt)
  | body (ss : List Stmt)

structure Site where
  context : Context
  part : Part
  start : Nat
  /-- The place behind the code. What widens the value of an expression is not part of its code. -/
  stop : Nat

/-- The type that a slot asks for. -/
def Slot.ty? : Slot → Option Ty
  | .exact ty => some ty
  | .any => none

namespace Expr

def site (Γ : Context) (slot : Option Ty) (a : Nat) (e : Expr) : Site :=
  ⟨Γ, .expr slot e, a, a + (e.marks Γ).length⟩

mutual

/-- The sites of the parts of an expression whose code starts at `a`. -/
def partSites (Γ : Context) (a : Nat) : Expr → List Site
  | int _ _ | float _ _ _ | bool _ _ | var _ _ => []
  | binary _ _ left right =>
    let b := a + (left.marks Γ).length
    partSites Γ a left ++ [left.site Γ none a] ++ (partSites Γ b right ++ [right.site Γ none b])
  | unary _ _ operand => partSites Γ a operand ++ [operand.site Γ none a]
  | call _ name args => argSites Γ a (slots Γ name) args

def argSites (Γ : Context) (a : Nat) : List Slot → List Expr → List Site
  | slot :: slots, arg :: args =>
    partSites Γ a arg ++ [arg.site Γ slot.ty? a] ++
      argSites Γ (a + (arg.marksInto Γ (slot.into (arg.ty Γ))).length) slots args
  | _, _ => []

end

def sites (Γ : Context) (slot : Option Ty) (a : Nat) (e : Expr) : List Site :=
  e.partSites Γ a ++ [e.site Γ slot a]

end Expr

namespace Stmt

def site (Γ : Context) (a : Nat) (s : Stmt) : Site :=
  ⟨Γ, .stmt s, a, a + (s.marks Γ).length⟩

def bodySite (Γ : Context) (a : Nat) (ss : List Stmt) : Site :=
  ⟨Γ, .body ss, a, a + (marksAll Γ ss).length⟩

mutual

/-- The sites of the parts of a statement whose code starts at `a`. -/
def partSites (Γ : Context) (a : Nat) : Stmt → List Site
  | declare _ ty _ init => init.sites Γ (some ty) a
  | assign _ name value => value.sites Γ (Γ.lookup? name) a
  | cond _ test body =>
    let b := a + (test.marks Γ).length + 1
    test.sites Γ none a ++ (sitesAll Γ.push b body ++ [bodySite Γ.push b body])
  | loop _ test body =>
    let b := a + 1 + (test.marks Γ).length + 1
    test.sites Γ none (a + 1) ++ (sitesAll Γ.push b body ++ [bodySite Γ.push b body])
  | ret _ none => []
  | ret _ (some value) => value.sites Γ Γ.ret a
  | eval value => value.sites Γ none a
  | block _ body => sitesAll Γ.push a body ++ [bodySite Γ.push a body]

def sitesAll (Γ : Context) (a : Nat) : List Stmt → List Site
  | [] => []
  | s :: ss =>
    partSites Γ a s ++ [s.site Γ a] ++ sitesAll (s.after Γ) (a + (s.marks Γ).length) ss

end

def bodySites (Γ : Context) (a : Nat) (body : List Stmt) : List Site :=
  sitesAll Γ a body ++ [bodySite Γ a body]

end Stmt

/-- A function of a program, the context in front of it and the place of its head. -/
structure Segment where
  context : Context
  function : Function
  start : Nat

namespace Segment

/-- The place behind the code of the function. -/
def stop (g : Segment) : Nat := g.start + (g.function.marks g.context).length

/-- The place of the first instruction of the body. -/
def bodyStart (g : Segment) : Nat := g.start + 1 + g.function.params.length

def sites (g : Segment) : List Site :=
  Stmt.bodySites (g.context.inside g.function) g.bodyStart g.function.body

end Segment

namespace Program

/-- The functions of declarations whose code starts at `a`. -/
def segmentsFrom (Γ : Context) (a : Nat) : Program → List Segment
  | [] => []
  | .stmt _ :: ds => segmentsFrom Γ a ds
  | .function f :: ds => ⟨Γ, f, a⟩ :: segmentsFrom (Γ.addFunction f) (a + (f.marks Γ).length) ds

def segments (p : Program) : List Segment := p.segmentsFrom .initial 0

/-- The sites of the bodies of a program's functions and of their parts. -/
def sites (p : Program) : List Site := p.segments.flatMap Segment.sites

end Program

/-! ### The code stands there -/

variable {p : Program} {Γ : Context} {ls c : List Line} {a : Nat}

/-- The part of the site is in order, and its lines stand where the site says. -/
def Site.Stands (p : Program) (ls : List Line) (x : Site) : Prop :=
  ∃ c, StandsAt ls x.start c ∧ x.stop = x.start + c.length ∧
    match x.part with
    | .expr _ e => ∃ ty, e.Coded p x.context ty c
    | .stmt s => ∃ n n', s.Coded p x.context n n' c
    | .body ss => ∃ n n', Stmt.CodedAll p x.context n ss n' c

@[simp] theorem Line.length_marks (ls : List Line) : (marks ls).length = ls.length := List.length_map _

theorem Expr.Coded.site_stands {e : Expr} {ty : Ty} (h : e.Coded p Γ ty c) (hl : StandsAt ls a c)
    (slot : Option Ty) : (e.site Γ slot a).Stands p ls :=
  ⟨c, hl, by simp [Expr.site, h.marks], ty, h⟩

theorem Stmt.Coded.site_stands {n n' : Nat} {s : Stmt} (h : s.Coded p Γ n n' c)
    (hl : StandsAt ls a c) : (s.site Γ a).Stands p ls :=
  ⟨c, hl, by simp [Stmt.site, h.marks], n, n', h⟩

theorem Stmt.CodedAll.bodySite_stands {n n' : Nat} {ss : List Stmt} (h : Stmt.CodedAll p Γ n ss n' c)
    (hl : StandsAt ls a c) : (Stmt.bodySite Γ a ss).Stands p ls :=
  ⟨c, hl, by simp [Stmt.bodySite, h.marks], n, n', h⟩

mutual

theorem Expr.Coded.partSites_stand {e : Expr} {ty : Ty} {c : List Line} {a : Nat} :
    e.Coded p Γ ty c → StandsAt ls a c → ∀ x ∈ e.partSites Γ a, x.Stands p ls
  | .int, _ => nofun
  | .float, _ => nofun
  | .bool, _ => nofun
  | .var _ _, _ => nofun
  | .binary hl hr _, h => by
    simp only [Expr.partSites, List.forall_mem_append, List.forall_mem_singleton, hl.marks,
      Line.length_marks]
    exact ⟨⟨hl.partSites_stand h.left.left, hl.site_stands h.left.left _⟩,
      hr.partSites_stand h.left.right, hr.site_stands h.left.right _⟩
  | .unary he _, h => by
    simp only [Expr.partSites, List.forall_mem_append, List.forall_mem_singleton]
    exact ⟨he.partSites_stand h.left, he.site_stands h.left _⟩
  | .call hf _ _ ha, h => by
    simp only [Expr.partSites, Expr.slots, hf]
    exact ha.argSites_stand h.left

theorem Expr.CodedArgs.argSites_stand {slots : List Slot} {args : List Expr} {tys : List Ty}
    {c : List Line} {a : Nat} : Expr.CodedArgs p Γ slots args tys c → StandsAt ls a c →
      ∀ x ∈ Expr.argSites Γ a slots args, x.Stands p ls
  | .nil, _ => nofun
  | .cons he hfit _ hes, h => by
    have hlen := (Expr.CodedInto.mk he hfit).marks
    simp only [Expr.argSites, List.forall_mem_append, List.forall_mem_singleton, he.ty_eq, hlen,
      Line.length_marks]
    exact ⟨⟨he.partSites_stand h.left.left, he.site_stands h.left.left _⟩,
      hes.argSites_stand h.right⟩

end

theorem Expr.Coded.sites_stand {e : Expr} {ty : Ty} (h : e.Coded p Γ ty c) (hl : StandsAt ls a c)
    (slot : Option Ty) : ∀ x ∈ e.sites Γ slot a, x.Stands p ls := by
  simp only [Expr.sites, List.forall_mem_append, List.forall_mem_singleton]
  exact ⟨h.partSites_stand hl, h.site_stands hl _⟩

theorem Expr.CodedInto.sites_stand {e : Expr} {ty : Ty} (h : e.CodedInto p Γ ty c)
    (hl : StandsAt ls a c) (slot : Option Ty) : ∀ x ∈ e.sites Γ slot a, x.Stands p ls := by
  obtain ⟨he, -⟩ := h
  exact he.sites_stand hl.left slot

mutual

theorem Stmt.Coded.partSites_stand {Γ : Context} {n n' : Nat} {s : Stmt} {c : List Line} {a : Nat} :
    s.Coded p Γ n n' c → StandsAt ls a c → ∀ x ∈ s.partSites Γ a, x.Stands p ls
  | .declare hi _ _, h => hi.sites_stand h.left _
  | .assign _ _ hv, h => hv.sites_stand h.left _
  | .cond ht hb, h => by
    have hbody : StandsAt ls _ _ := h.left.right
    simp only [List.length_append, List.length_singleton, ← Nat.add_assoc] at hbody
    simp only [Stmt.partSites, List.forall_mem_append, List.forall_mem_singleton, ht.marks,
      Line.length_marks]
    exact ⟨ht.sites_stand h.left.left.left _, hb.sitesAll_stand hbody, hb.bodySite_stands hbody⟩
  | .loop ht hb, h => by
    have hbody : StandsAt ls _ _ := h.left.right
    simp only [List.length_append, List.length_singleton, ← Nat.add_assoc] at hbody
    simp only [Stmt.partSites, List.forall_mem_append, List.forall_mem_singleton, ht.marks,
      Line.length_marks]
    exact ⟨ht.sites_stand h.left.left.left.right _, hb.sitesAll_stand hbody,
      hb.bodySite_stands hbody⟩
  | .retVoid _, _ => nofun
  | .ret _ hv, h => hv.sites_stand h.left _
  | .eval hv, h => hv.sites_stand h.left _
  | .block hb, h => by
    simp only [Stmt.partSites, List.forall_mem_append, List.forall_mem_singleton]
    exact ⟨hb.sitesAll_stand h, hb.bodySite_stands h⟩

theorem Stmt.CodedAll.sitesAll_stand {Γ : Context} {n n' : Nat} {ss : List Stmt} {c : List Line}
    {a : Nat} : Stmt.CodedAll p Γ n ss n' c → StandsAt ls a c →
      ∀ x ∈ Stmt.sitesAll Γ a ss, x.Stands p ls
  | .nil, _ => nofun
  | .cons hs hss, h => by
    simp only [Stmt.sitesAll, List.forall_mem_append, List.forall_mem_singleton, hs.marks,
      Line.length_marks]
    exact ⟨⟨hs.partSites_stand h.left, hs.site_stands h.left⟩, hss.sitesAll_stand h.right⟩

end

theorem Stmt.CodedAll.bodySites_stand {n n' : Nat} {ss : List Stmt} (h : Stmt.CodedAll p Γ n ss n' c)
    (hl : StandsAt ls a c) : ∀ x ∈ Stmt.bodySites Γ a ss, x.Stands p ls := by
  simp only [Stmt.bodySites, List.forall_mem_append, List.forall_mem_singleton]
  exact ⟨h.sitesAll_stand hl, h.bodySite_stands hl⟩

namespace Segment

/-- The lines of the function stand where the segment says. -/
def Stands (p : Program) (ls : List Line) (g : Segment) : Prop :=
  ∃ n n' body, g.function.Coded p g.context n n' body ∧
    StandsAt ls g.start (g.function.lines body) ∧
    StandsAt ls g.bodyStart (body ++ [.plain .fin]) ∧
    g.stop = g.bodyStart + body.length + 1

variable {g : Segment}

theorem Stands.stop_le (h : g.Stands p ls) : g.stop ≤ ls.length := by
  obtain ⟨n, n', body, -, -, ⟨before, after, rfl, hlen⟩, hstop⟩ := h
  simp only [List.length_append, List.length_singleton]
  omega

theorem Stands.sites (h : g.Stands p ls) : ∀ x ∈ g.sites, x.Stands p ls := by
  obtain ⟨n, n', body, hf, -, hl, -⟩ := h
  exact hf.body.bodySites_stand hl.left

end Segment

theorem Function.length_lines (f : Function) (body : List Line) :
    (f.lines body).length = 1 + f.params.length + body.length + 1 := by
  simp only [lines, List.length_append, List.length_map, List.length_reverse, List.length_singleton]

theorem Function.Coded.segment_stands {n n' : Nat} {f : Function} {body : List Line}
    (h : f.Coded p Γ n n' body) (hl : StandsAt ls a (f.lines body)) :
    Segment.Stands p ls ⟨Γ, f, a⟩ := by
  refine ⟨n, n', body, h, hl, ?_, ?_⟩
  · rw [Function.lines, List.append_assoc _ body] at hl
    simpa [Segment.bodyStart, Nat.add_assoc, Nat.add_comm 1] using hl.right
  · simp only [Segment.stop, Segment.bodyStart, h.marks, Line.length_marks, f.length_lines]
    omega

namespace Program.CodedFrom

variable {n : Nat} {ds : Program}

/-- The functions of the program stand one behind the other. -/
theorem segments_stand (h : CodedFrom p Γ n ds c) (hl : StandsAt ls a c) :
    ∀ g ∈ ds.segmentsFrom Γ a, g.Stands p ls := by
  induction h generalizing a with
  | nil => nofun
  | cons hf _ ih =>
    rw [segmentsFrom, hf.marks, Line.length_marks]
    rintro g (_ | ⟨_, hg⟩)
    · exact hf.segment_stands hl.left
    · exact ih hl.right g hg

end Program.CodedFrom

namespace Program

variable {g g' : Segment} {i : Nat}

theorem le_start_of_mem_segmentsFrom : ∀ {ds : Program} {Γ : Context} {a : Nat},
    g ∈ ds.segmentsFrom Γ a → a ≤ g.start
  | .stmt _ :: ds, Γ, a, h => by
    have hds : g ∈ segmentsFrom Γ a ds := h
    exact le_start_of_mem_segmentsFrom hds
  | .function f :: ds, _, _, h => by
    rcases List.mem_cons.mp h with rfl | h
    · exact Nat.le_refl _
    · exact Nat.le_trans (Nat.le_add_right ..) (le_start_of_mem_segmentsFrom h)

/-- A place is in one function only. -/
theorem segment_unique : ∀ {ds : Program} {Γ : Context} {a : Nat},
    g ∈ ds.segmentsFrom Γ a → g' ∈ ds.segmentsFrom Γ a → g.start ≤ i → i < g.stop →
    g'.start ≤ i → i < g'.stop → g = g'
  | .stmt _ :: ds, Γ, a, h, h', hi, hi', hk, hk' => by
    have hds : g ∈ segmentsFrom Γ a ds := h
    exact segment_unique hds h' hi hi' hk hk'
  | .function f :: ds, Γ, a, h, h', hi, hi', hk, hk' => by
    rcases List.mem_cons.mp h with rfl | h <;> rcases List.mem_cons.mp h' with rfl | h'
    · rfl
    · exact absurd (Nat.le_trans (le_start_of_mem_segmentsFrom h') hk) (Nat.not_le_of_lt hi')
    · exact absurd (Nat.le_trans (le_start_of_mem_segmentsFrom h) hi) (Nat.not_le_of_lt hk')
    · exact segment_unique h h' hi hi' hk hk'

theorem mem_functionsFrom_of_mem_segmentsFrom : ∀ {ds : Program} {Γ : Context} {a : Nat},
    g ∈ ds.segmentsFrom Γ a → (g.context, g.function) ∈ ds.functionsFrom Γ
  | .stmt _ :: ds, Γ, a, h => by
    have hds : g ∈ segmentsFrom Γ a ds := h
    have hmem : _ ∈ functionsFrom Γ ds := mem_functionsFrom_of_mem_segmentsFrom hds
    exact hmem
  | .function f :: ds, _, _, h => by
    rcases List.mem_cons.mp h with rfl | h
    · exact List.mem_cons_self ..
    · exact List.mem_cons_of_mem _ (mem_functionsFrom_of_mem_segmentsFrom h)

namespace Coded

theorem segments_stand (h : p.Coded ls) : ∀ g ∈ p.segments, g.Stands p ls :=
  CodedFrom.segments_stand h (StandsAt.whole ls)

theorem stands (h : p.Coded ls) : ∀ x ∈ p.sites, x.Stands p ls := by
  intro x hx
  obtain ⟨g, hg, hx⟩ := List.mem_flatMap.mp hx
  exact (h.segments_stand g hg).sites x hx

end Coded

end Program

end Labyrinth
