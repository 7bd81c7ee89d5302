import Labyrinth.Proofs.Code.Sites
import Labyrinth.Proofs.Accepted
import Mathlib.Data.List.Pairwise

/-!
# Compilation is total, and where it widens

The code of a program that was checked follows the analyser step by step, so it fails only at a
statement on the top level. It has widening instructions behind the expressions whose value is an
integer and whose slot is for a float, and nowhere else (`Program.Widens`).
-/

namespace Labyrinth

/-- The places of the widening instructions in a code that starts at `a`. -/
def Code.widenings (a : Nat) : Code → List Nat
  | [] => []
  | .toFloat :: c => a :: widenings (a + 1) c
  | _ :: c => widenings (a + 1) c

namespace Site

/-- The place behind an expression that is an integer in a slot for a float. -/
def widening? (x : Site) : Option Nat :=
  match x.part with
  | .expr (some slot) e => if slot.widens (e.ty x.context) then some x.stop else none
  | _ => none

/-- The place behind an expression. -/
def value? (x : Site) : Option Nat :=
  match x.part with
  | .expr _ _ => some x.stop
  | _ => none

theorem value?_eq_of_widening? {x : Site} {i : Nat} (h : x.widening? = some i) :
    x.value? = some i := by
  unfold widening? at h
  unfold value?
  split at h
  · next hpart =>
    rw [hpart]
    split at h
    · exact h
    · cases h
  · cases h

end Site

namespace Code

variable {c d : Code} {a i : Nat}

theorem widenings_append : ∀ (a : Nat) (c d : Code),
    widenings a (c ++ d) = widenings a c ++ widenings (a + c.length) d
  | _, [], _ => rfl
  | a, i :: c, d => by
    have ih := widenings_append (a + 1) c d
    rw [Nat.add_assoc, Nat.add_comm 1] at ih
    cases i <;> simp only [List.cons_append, widenings, List.length_cons, ih]

theorem mem_widenings : ∀ {a : Nat} {d : Code},
    i ∈ widenings a d ↔ ∃ k, i = a + k ∧ d[k]? = some .toFloat
  | a, [] => by simp [widenings]
  | a, x :: d => by
    have ih := mem_widenings (a := a + 1) (d := d)
    -- The first instruction stands at `a`, and those behind it at `a + 1` and further.
    have hrest : (∃ k, i = a + 1 + k ∧ d[k]? = some .toFloat) ↔
        ∃ k, i = a + (k + 1) ∧ (x :: d)[k + 1]? = some .toFloat := by
      simp only [List.getElem?_cons_succ, Nat.add_assoc, Nat.add_comm 1]
    by_cases hx : x = .toFloat
    · subst hx
      rw [widenings, List.mem_cons, ih, hrest]
      constructor
      · rintro (rfl | ⟨k, hk⟩)
        · exact ⟨0, rfl, rfl⟩
        · exact ⟨k + 1, hk⟩
      · rintro ⟨_ | k, hk⟩
        · exact .inl hk.1
        · exact .inr ⟨k, hk⟩
    · rw [show widenings a (x :: d) = widenings (a + 1) d by cases x <;> simp_all [widenings], ih, hrest]
      constructor
      · rintro ⟨k, hk⟩
        exact ⟨k + 1, hk⟩
      · rintro ⟨_ | k, hk⟩
        · exact absurd (Option.some.inj hk.2) hx
        · exact ⟨k, hk⟩

end Code

/-! ### The places of the widening instructions -/

variable {p : Program} {Γ : Context} {ls c : List Line}

open Code

theorem Line.widenings_widening (a : Nat) (slot ty : Ty) :
    widenings a (Line.code (Line.widening slot ty)) = if slot.widens ty then [a] else [] := by
  unfold Line.widening
  split <;> rfl

theorem Expr.widening?_site {slot : Ty} {a : Nat} (e : Expr) :
    (e.site Γ (some slot) a).widening? =
      if slot.widens (e.ty Γ) then some (a + (e.marks Γ).length) else none := rfl

theorem Expr.widening?_site_none (Γ : Context) (a : Nat) (e : Expr) :
    [e.site Γ none a].filterMap Site.widening? = [] := rfl

theorem Expr.widening?_site_any {slot : Slot} {a : Nat} (e : Expr) :
    (e.site Γ slot.ty? a).widening? =
      if (slot.into (e.ty Γ)).widens (e.ty Γ) then some (a + (e.marks Γ).length) else none := by
  cases slot with
  | exact slot => rfl
  | any => simp only [Slot.into, Ty.widens_self]; rfl

mutual

/-- The places of the widening instructions in the code of an expression are those behind its parts
that are widened. -/
theorem Expr.Coded.widenings_eq {e : Expr} {ty : Ty} {c : List Line} (a : Nat) :
    e.Coded p Γ ty c →
      widenings a (Line.code c) = (e.partSites Γ a).filterMap Site.widening?
  | .int => rfl
  | .float => rfl
  | .bool => rfl
  | .var _ _ => rfl
  | .binary hl hr _ => by
    simp only [Line.code_append, widenings_append, hl.widenings_eq, hr.widenings_eq, Expr.partSites,
      List.filterMap_append, Expr.widening?_site_none, hl.marks, Line.length_marks, Line.length_code]
    simp [widenings]
  | .unary (o := o) he _ => by
    simp only [Line.code_append, widenings_append, he.widenings_eq, Expr.partSites,
      List.filterMap_append]
    cases o <;> rfl
  | .call hf _ _ ha => by
    simp only [Line.code_append, widenings_append, ha.widenings_eq, Expr.partSites, Expr.slots, hf]
    exact List.append_nil _

theorem Expr.CodedArgs.widenings_eq {slots : List Slot} {args : List Expr} {tys : List Ty}
    {c : List Line} (a : Nat) : Expr.CodedArgs p Γ slots args tys c →
      widenings a (Line.code c) = (Expr.argSites Γ a slots args).filterMap Site.widening?
  | .nil => rfl
  | .cons he hfit _ hes => by
    have hlen := (Expr.CodedInto.mk he hfit).marks
    simp only [Line.code_append, widenings_append, he.widenings_eq, hes.widenings_eq, Expr.argSites,
      List.filterMap_append, hlen, Line.length_marks, Line.length_code, Line.widenings_widening,
      List.filterMap_cons, List.filterMap_nil, Expr.widening?_site_any, he.ty_eq, he.marks,
      List.length_append]
    split <;> simp_all

end

theorem Expr.Coded.widenings_sites {e : Expr} {ty : Ty} (a : Nat) (h : e.Coded p Γ ty c) :
    widenings a (Line.code c) = (e.sites Γ none a).filterMap Site.widening? := by
  rw [h.widenings_eq, Expr.sites, List.filterMap_append]
  exact (List.append_nil _).symm

theorem Expr.CodedInto.widenings_sites {e : Expr} {slot : Ty} (a : Nat)
    (h : e.CodedInto p Γ slot c) :
    widenings a (Line.code c) = (e.sites Γ (some slot) a).filterMap Site.widening? := by
  obtain ⟨he, -⟩ := h
  simp only [Line.code_append, widenings_append, he.widenings_eq, Line.length_code,
    Line.widenings_widening, Expr.sites, List.filterMap_append, List.filterMap_cons,
    List.filterMap_nil, Expr.widening?_site, he.ty_eq, he.marks, Line.length_marks]
  split <;> simp_all

theorem Stmt.widening?_bodySite (Γ : Context) (a : Nat) (ss : List Stmt) :
    [Stmt.bodySite Γ a ss].filterMap Site.widening? = [] := rfl

theorem Stmt.widening?_site (Γ : Context) (a : Nat) (s : Stmt) :
    [s.site Γ a].filterMap Site.widening? = [] := rfl

mutual

theorem Stmt.Coded.widenings_eq {Γ : Context} {n n' : Nat} {s : Stmt} {c : List Line} (a : Nat) :
    s.Coded p Γ n n' c →
      widenings a (Line.code c) = (s.partSites Γ a).filterMap Site.widening?
  | .declare hi _ _ => by
    rw [Line.code_append, widenings_append, hi.widenings_sites]
    exact List.append_nil _
  | .assign hn _ hv => by
    rw [Line.code_append, widenings_append, hv.widenings_sites, Stmt.partSites, hn]
    exact List.append_nil _
  | .cond ht hb => by
    simp only [Line.code_append, widenings_append, ht.widenings_sites, hb.widenings_eq,
      Stmt.partSites, List.filterMap_append, Stmt.widening?_bodySite, ht.marks, Line.length_marks,
      List.length_append, Line.length_code, ← Nat.add_assoc]
    simp [widenings]
  | .loop ht hb => by
    simp only [Line.code_append, widenings_append, ht.widenings_sites, hb.widenings_eq,
      Stmt.partSites, List.filterMap_append, Stmt.widening?_bodySite, ht.marks, Line.length_marks,
      List.length_append, Line.length_code, ← Nat.add_assoc]
    simp [widenings]
  | .retVoid _ => rfl
  | .ret hr hv => by
    rw [Line.code_append, widenings_append, hv.widenings_sites, Stmt.partSites, hr]
    exact List.append_nil _
  | .eval hv => by
    rw [Line.code_append, widenings_append, hv.widenings_sites]
    exact List.append_nil _
  | .block hb => by
    rw [hb.widenings_eq, Stmt.partSites, List.filterMap_append]
    exact (List.append_nil _).symm

theorem Stmt.CodedAll.widenings_eq {Γ : Context} {n n' : Nat} {ss : List Stmt} {c : List Line}
    (a : Nat) : Stmt.CodedAll p Γ n ss n' c →
      widenings a (Line.code c) = (Stmt.sitesAll Γ a ss).filterMap Site.widening?
  | .nil => rfl
  | .cons hs hss => by
    simp only [Line.code_append, widenings_append, hs.widenings_eq, hss.widenings_eq,
      Stmt.sitesAll, List.filterMap_append, Stmt.widening?_site, hs.marks, Line.length_marks,
      Line.length_code, List.append_nil]

end

theorem Function.widenings_params (a : Nat) (xs : List Param) :
    widenings a (xs.map fun x => .store x.name) = [] := by
  induction xs generalizing a with
  | nil => rfl
  | cons x xs ih => exact ih (a + 1)

theorem Function.Coded.widenings_eq {n n' : Nat} {f : Function} {body : List Line} (a : Nat)
    (h : f.Coded p Γ n n' body) :
    widenings a (Line.code (f.lines body)) =
      (Segment.sites ⟨Γ, f, a⟩).filterMap Site.widening? := by
  have hparams : Line.code (f.params.reverse.map fun x => .taking [x.ty] (.store x.name)) =
      f.params.reverse.map fun x => .store x.name := by
    simp [Line.code, Function.comp_def]
  simp only [Function.lines, Line.code_append, widenings_append, hparams, Function.widenings_params,
    h.body.widenings_eq, Segment.sites, Stmt.bodySites, List.filterMap_append,
    Stmt.widening?_bodySite, List.length_append, List.length_map, List.length_reverse,
    Line.length_code, List.length_singleton, Segment.bodyStart, ← Nat.add_assoc]
  simp [widenings]

theorem Program.CodedFrom.widenings_eq {n : Nat} {ds : Program} {a : Nat}
    (h : CodedFrom p Γ n ds ls) :
    widenings a (Line.code ls) =
      ((ds.segmentsFrom Γ a).flatMap Segment.sites).filterMap Site.widening? := by
  induction h generalizing a with
  | nil => rfl
  | cons hf _ ih =>
    rw [Line.code_append, widenings_append, hf.widenings_eq, ih, segmentsFrom, List.flatMap_cons,
      List.filterMap_append, Line.length_code, hf.marks, Line.length_marks]

/-! ### Different expressions stop at different places -/

/-- Increasing numbers above `a` and up to `b`. -/
structure Ascends (a : Nat) (l : List Nat) (b : Nat) : Prop where
  le : a ≤ b
  range : ∀ n ∈ l, a < n ∧ n ≤ b
  pairwise : l.Pairwise (· < ·)

namespace Ascends

variable {a b d : Nat} {l l' : List Nat}

theorem nil (h : a ≤ b) : Ascends a [] b := ⟨h, nofun, .nil⟩

theorem append (h : Ascends a l b) (h' : Ascends b l' d) : Ascends a (l ++ l') d where
  le := Nat.le_trans h.le h'.le
  range := by
    intro n hn
    rcases List.mem_append.mp hn with hn | hn
    · exact ⟨(h.range n hn).1, Nat.le_trans (h.range n hn).2 h'.le⟩
    · exact ⟨Nat.lt_of_le_of_lt h.le (h'.range n hn).1, (h'.range n hn).2⟩
  pairwise := List.pairwise_append.mpr ⟨h.pairwise, h'.pairwise, fun n hn k hk =>
    Nat.lt_of_le_of_lt (h.range n hn).2 (h'.range k hk).1⟩

theorem singleton (h : a < b) : Ascends a [b] b where
  le := Nat.le_of_lt h
  range := by simpa using h
  pairwise := List.pairwise_singleton ..

theorem more (h : Ascends a l b) (hb : b ≤ d) : Ascends a l d where
  le := Nat.le_trans h.le hb
  range := fun n hn => ⟨(h.range n hn).1, Nat.le_trans (h.range n hn).2 hb⟩
  pairwise := h.pairwise

theorem fewer (h : Ascends a l b) (ha : d ≤ a) : Ascends d l b where
  le := Nat.le_trans ha h.le
  range := fun n hn => ⟨Nat.lt_of_le_of_lt ha (h.range n hn).1, (h.range n hn).2⟩
  pairwise := h.pairwise

end Ascends

/-- The places behind the expressions among sites. -/
def valueStops (xs : List Site) : List Nat := xs.filterMap Site.value?

theorem valueStops_append (xs ys : List Site) :
    valueStops (xs ++ ys) = valueStops xs ++ valueStops ys := List.filterMap_append

theorem Ascends.concat {Γ : Context} {slot : Option Ty} {a b : Nat} {xs : List Site} {e : Expr}
    (h : Ascends a (valueStops xs) b) (hb : b < a + (e.marks Γ).length) :
    Ascends a (valueStops (xs ++ [e.site Γ slot a])) (a + (e.marks Γ).length) := by
  rw [valueStops_append]
  exact h.append (.singleton hb)

mutual

/-- The parts of an expression stop in front of its own last instruction. -/
theorem Expr.ascends_partSites (Γ : Context) (a : Nat) : ∀ e : Expr,
    ∃ b < a + (e.marks Γ).length, Ascends a (valueStops (e.partSites Γ a)) b
  | .int _ _ | .float _ _ _ | .bool _ _ | .var _ _ =>
    ⟨a, Nat.lt_succ_self a, .nil (Nat.le_refl a)⟩
  | .binary _ _ l r => by
    obtain ⟨b, hb, hl⟩ := Expr.ascends_partSites Γ a l
    obtain ⟨d, hd, hr⟩ := Expr.ascends_partSites Γ (a + (l.marks Γ).length) r
    refine ⟨a + (l.marks Γ).length + (r.marks Γ).length, ?_, ?_⟩
    · simp only [Expr.marks, List.length_append, List.length_singleton]
      omega
    · rw [Expr.partSites, valueStops_append]
      exact (hl.concat hb).append (hr.concat hd)
  | .unary _ _ e => by
    obtain ⟨b, hb, he⟩ := Expr.ascends_partSites Γ a e
    refine ⟨a + (e.marks Γ).length, ?_, he.concat hb⟩
    simp only [Expr.marks, List.length_append, List.length_singleton]
    omega
  | .call _ name args => by
    refine ⟨_, ?_, Expr.ascends_argSites Γ a (Expr.slots Γ name) args⟩
    simp only [Expr.marks, List.length_append, List.length_singleton]
    omega

theorem Expr.ascends_argSites (Γ : Context) (a : Nat) : ∀ (slots : List Slot) (args : List Expr),
    Ascends a (valueStops (Expr.argSites Γ a slots args))
      (a + (Expr.argMarks Γ slots args).length)
  | [], [] | [], _ :: _ | _ :: _, [] => .nil (Nat.le_refl a)
  | slot :: slots, e :: es => by
    obtain ⟨b, hb, he⟩ := Expr.ascends_partSites Γ a e
    have hrest := Expr.ascends_argSites Γ
      (a + (e.marksInto Γ (slot.into (e.ty Γ))).length) slots es
    rw [Expr.argSites, valueStops_append]
    have hlen : (Expr.argMarks Γ (slot :: slots) (e :: es)).length =
        (e.marksInto Γ (slot.into (e.ty Γ))).length + (Expr.argMarks Γ slots es).length := by
      simp only [Expr.argMarks, Expr.marksInto, List.length_append]
    rw [hlen, ← Nat.add_assoc]
    refine ((he.concat hb).more ?_).append hrest
    simp only [Expr.marksInto, List.length_append]
    omega

end

theorem Expr.ascends_sites (Γ : Context) (slot : Option Ty) (a : Nat) (e : Expr) :
    Ascends a (valueStops (e.sites Γ slot a)) (a + (e.marks Γ).length) := by
  obtain ⟨b, hb, h⟩ := Expr.ascends_partSites Γ a e
  exact h.concat hb

theorem valueStops_bodySites (Γ : Context) (a : Nat) (ss : List Stmt) :
    valueStops (Stmt.bodySites Γ a ss) = valueStops (Stmt.sitesAll Γ a ss) := by
  rw [Stmt.bodySites, valueStops_append]
  exact List.append_nil _

mutual

theorem Stmt.ascends_partSites (Γ : Context) (a : Nat) : ∀ s : Stmt,
    Ascends a (valueStops (s.partSites Γ a)) (a + (s.marks Γ).length)
  | .declare _ ty _ init => (init.ascends_sites Γ (some ty) a).more (by
      simp only [Stmt.marks, Expr.marksInto, List.length_append]; omega)
  | .assign _ name value => (value.ascends_sites Γ (Γ.lookup? name) a).more (by
      simp only [Stmt.marks, Expr.marksInto, List.length_append]; omega)
  | .cond _ test body => by
    have hb := Stmt.ascends_sitesAll Γ.push (a + (test.marks Γ).length + 1) body
    rw [Stmt.partSites, valueStops_append, ← Stmt.bodySites, valueStops_bodySites]
    refine ((test.ascends_sites Γ none a).more (Nat.le_succ _)).append (hb.more ?_)
    simp only [Stmt.marks, List.length_append, List.length_singleton]
    omega
  | .loop _ test body => by
    have hb := Stmt.ascends_sitesAll Γ.push (a + 1 + (test.marks Γ).length + 1) body
    rw [Stmt.partSites, valueStops_append, ← Stmt.bodySites, valueStops_bodySites]
    refine (((test.ascends_sites Γ none (a + 1)).fewer (Nat.le_succ a)).more
      (Nat.le_succ _)).append (hb.more ?_)
    simp only [Stmt.marks, List.length_append, List.length_cons]
    omega
  | .ret _ none => .nil (Nat.le_add_right ..)
  | .ret _ (some value) => (value.ascends_sites Γ Γ.ret a).more (by
      simp only [Stmt.marks, Expr.marksInto, List.length_append]; omega)
  | .eval value => (value.ascends_sites Γ none a).more (by
      simp only [Stmt.marks, List.length_append]; omega)
  | .block _ body => by
    have hb := Stmt.ascends_sitesAll Γ.push a body
    rwa [Stmt.partSites, ← Stmt.bodySites, valueStops_bodySites, Stmt.marks]

theorem Stmt.ascends_sitesAll (Γ : Context) (a : Nat) : ∀ ss : List Stmt,
    Ascends a (valueStops (Stmt.sitesAll Γ a ss)) (a + (Stmt.marksAll Γ ss).length)
  | [] => .nil (Nat.le_add_right ..)
  | s :: ss => by
    have hs : Ascends a (valueStops (s.partSites Γ a ++ [s.site Γ a])) (a + (s.marks Γ).length) := by
      rw [valueStops_append]
      exact (List.append_nil _).symm ▸ Stmt.ascends_partSites Γ a s
    have hss := Stmt.ascends_sitesAll (s.after Γ) (a + (s.marks Γ).length) ss
    rw [Stmt.sitesAll, valueStops_append, Stmt.marksAll, List.length_append, ← Nat.add_assoc]
    exact hs.append hss

end

theorem Segment.ascends_sites (g : Segment) : Ascends g.start (valueStops g.sites) g.stop := by
  rw [sites, valueStops_bodySites]
  refine (Stmt.ascends_sitesAll _ g.bodyStart g.function.body).fewer ?_ |>.more ?_
  · rw [bodyStart]; omega
  · simp only [stop, bodyStart, Function.marks, List.length_append, List.length_map,
      List.length_reverse, List.length_singleton]
    omega

theorem Program.ascends_segmentsFrom : ∀ (Γ : Context) (a : Nat) (ds : Program),
    ∃ b, Ascends a (valueStops ((ds.segmentsFrom Γ a).flatMap Segment.sites)) b
  | _, a, [] => ⟨a, .nil (Nat.le_refl a)⟩
  | Γ, a, .stmt _ :: ds => ascends_segmentsFrom Γ a ds
  | Γ, a, .function f :: ds => by
    obtain ⟨b, h⟩ := ascends_segmentsFrom (Γ.addFunction f) (a + (f.marks Γ).length) ds
    refine ⟨b, ?_⟩
    rw [segmentsFrom, List.flatMap_cons, valueStops_append]
    exact (Segment.ascends_sites ⟨Γ, f, a⟩).append h

/-- Two sites of expressions that stop at the same place are one. -/
theorem Program.site_unique {x y : Site} {i : Nat} (hx : x ∈ p.sites) (hy : y ∈ p.sites)
    (hxi : x.value? = some i) (hyi : y.value? = some i) : x = y := by
  obtain ⟨b, h⟩ := ascends_segmentsFrom .initial 0 p
  let differ (x y : Site) : Prop := ∀ i, x.value? = some i → y.value? ≠ some i
  have hsymm : Std.Symm differ := ⟨fun _ _ h i hi hj => h i hj hi⟩
  have hdiffer : p.sites.Pairwise differ :=
    (List.pairwise_filterMap.mp h.pairwise).imp fun hlt i hi hj => Nat.lt_irrefl i (hlt i hi i hj)
  by_contra hne
  exact hdiffer.forall hx hy hne i hxi hyi

/-! ### Whole programs -/

def Decl.stmt? : Decl → Option Stmt
  | .function _ => none
  | .stmt s => some s

/-- The code of a program has the code of each expression at its site, and a widening instruction
behind it exactly if it is an integer for a float slot; it has no other widening instructions. -/
structure Program.Widens (p : Program) (code : Code) : Prop where
  stands : ∀ x ∈ p.sites, ∀ slot e, x.part = .expr slot e → ∃ ty c,
    e.typeOf x.context = .ok ty ∧ e.code x.context = .ok c ∧ StandsAt code x.start c ∧
      x.stop = x.start + c.length
  widened : ∀ x ∈ p.sites, ∀ slot e, x.part = .expr slot e →
    (code[x.stop]? = some .toFloat ↔ slot = some .float ∧ e.typeOf x.context = .ok .int)
  only : ∀ i, code[i]? = some .toFloat →
    ∃ x ∈ p.sites, x.stop = i ∧ ∃ slot e, x.part = .expr slot e

theorem Ty.widens_iff {slot ty : Ty} : slot.widens ty = true ↔ slot = .float ∧ ty = .int := by
  cases slot <;> cases ty <;> decide

theorem Site.widening?_eq_some_iff {x : Site} {slot : Option Ty} {e : Expr} {ty : Ty}
    (hpart : x.part = .expr slot e) (hty : e.typeOf x.context = .ok ty) :
    x.widening? = some x.stop ↔ slot = some .float ∧ ty = .int := by
  have heq : e.ty x.context = ty := by rw [Expr.ty, hty]; rfl
  rw [widening?, hpart]
  cases slot with
  | none => simp
  | some slot =>
    simp only [heq, Option.some.injEq, ← Ty.widens_iff]
    by_cases h : slot.widens ty <;> simp [h]

theorem Program.Coded.mem_widenings (h : p.Coded ls) {i : Nat} :
    (Line.code ls)[i]? = some .toFloat ↔ ∃ x ∈ p.sites, x.widening? = some i := by
  have hall := CodedFrom.widenings_eq (a := 0) h
  rw [← List.mem_filterMap, sites, segments, ← hall, Code.mem_widenings]
  simp only [Nat.zero_add, exists_eq_left']

theorem Program.Coded.widens (h : p.Coded ls) : p.Widens (Line.code ls) := by
  have hstands {x : Site} (hx : x ∈ p.sites) {slot : Option Ty} {e : Expr}
      (hpart : x.part = .expr slot e) : ∃ ty c, e.Coded p x.context ty c ∧
        StandsAt ls x.start c ∧ x.stop = x.start + c.length := by
    obtain ⟨c, hl, hstop, hcoded⟩ := h.stands x hx
    rw [hpart] at hcoded
    obtain ⟨ty, hcoded⟩ := hcoded
    exact ⟨ty, c, hcoded, hl, hstop⟩
  refine ⟨?stands, ?widened, ?only⟩
  case stands =>
    intro x hx slot e hpart
    obtain ⟨ty, c, hcoded, hl, hstop⟩ := hstands hx hpart
    exact ⟨ty, Line.code c, hcoded.typeOf, hcoded.code, hl.map _, by rw [Line.length_code, hstop]⟩
  case widened =>
    intro x hx slot e hpart
    obtain ⟨ty, c, hcoded, -, -⟩ := hstands hx hpart
    rw [hcoded.typeOf, Except.ok.injEq, ← Site.widening?_eq_some_iff hpart hcoded.typeOf,
      h.mem_widenings]
    constructor
    · rintro ⟨y, hy, hi⟩
      have hxi : x.value? = some x.stop := by rw [Site.value?, hpart]
      obtain rfl := site_unique hx hy hxi (Site.value?_eq_of_widening? hi)
      exact hi
    · exact fun hi => ⟨x, hx, hi⟩
  case only =>
    intro i hi
    obtain ⟨x, hx, hi⟩ := h.mem_widenings.mp hi
    have hvalue := Site.value?_eq_of_widening? hi
    rw [Site.value?] at hvalue
    split at hvalue
    · next slot e hpart => exact ⟨x, hx, Option.some.inj hvalue, slot, e, hpart⟩
    · cases hvalue

namespace Program

/-- The first statement among declarations. -/
def statement? (p : Program) : Option Stmt := p.findSome? Decl.stmt?

theorem isSome_function?_of_stmt? {d : Decl} (h : d.stmt? = none) : d.function?.isSome := by
  cases d with
  | function f => rfl
  | stmt s => cases h

/-- Code is lost at the first statement, behind functions that have code. -/
theorem CodedFrom.code_append {n : Nat} {fs : Program} (h : CodedFrom p Γ n fs ls) (s : Stmt)
    (rest : Program) :
    (fs ++ .stmt s :: rest).codeFrom Γ n = .error (.refused .topLevelStatement s.loc) := by
  induction h with
  | nil => rfl
  | cons hf _ ih =>
    simp only [List.cons_append, codeFrom, hf.code, ih, bind, Except.bind]

/-- A program that is checked has code if all its declarations are functions, and the code widens
where the types ask for it; else the first statement among the declarations is refused. -/
theorem code_of_check (h : p.check = .ok ()) :
    (p.statement? = none → ∃ code, p.code = .ok code ∧ p.Widens code) ∧
    ∀ s, p.statement? = some s → ∃ problem, p.code = .error (.refused problem s.loc) ∧
      problem.message = "Top-level statements must be functions" := by
  constructor
  · intro hnone
    have hall : ∀ d ∈ p, d.function?.isSome := fun d hd =>
      isSome_function?_of_stmt? (List.findSome?_eq_none_iff.mp hnone d hd)
    obtain ⟨ls, hls⟩ := exists_coded_of_check hall h
    exact ⟨Line.code ls, hls.code_eq, hls.widens⟩
  · intro s hs
    obtain ⟨fs, d, rest, rfl, hd, hfs⟩ := List.findSome?_eq_some_iff.mp hs
    obtain rfl : d = .stmt s := by
      cases d with
      | function f => cases hd
      | stmt s' => cases hd; rfl
    obtain ⟨ls, hls⟩ := exists_coded_of_append (fun d hd => isSome_function?_of_stmt? (hfs d hd)) h
    exact ⟨.topLevelStatement, hls.code_append s rest, rfl⟩

/-- The sample text, where an argument is widened, and the same with a statement behind it. -/
theorem code_of_check_sample : ∃ (p q : Program) (s : Stmt),
    p.check = .ok () ∧ p.statement? = none ∧ (∃ code, p.code = .ok code ∧ p.Widens code) ∧
    q.check = .ok () ∧ q.statement? = some s ∧ ∃ problem, q.code = .error (.refused problem s.loc) ∧
      problem.message = "Top-level statements must be functions" := by
  let s : Stmt := .eval (.int ⟨1, 1⟩ 1)
  let behind (p : Program) : Program := p ++ [.stmt s]
  obtain ⟨p, hp, h⟩ := Except.any_toOption (x := Source.checked Source.sample) (q := fun p =>
    (behind p).check.toOption.isSome && p.statement?.isNone) (by decide +kernel)
  simp only [Bool.and_eq_true, Option.isNone_iff_eq_none] at h
  obtain ⟨hchecked, hnone⟩ := h
  obtain ⟨⟨⟩, hchecked⟩ := Except.isSome_toOption hchecked
  obtain ⟨-, -, hcheck⟩ := Source.checked_eq_ok hp
  have hsome : (behind p).statement? = some s := by
    rw [statement?, List.findSome?_append, show p.findSome? Decl.stmt? = none from hnone]
    rfl
  exact ⟨p, behind p, s, hcheck, hnone, (code_of_check hcheck).1 hnone, hchecked, hsome,
    (code_of_check hchecked).2 s hsome⟩

end Program

end Labyrinth
