import Labyrinth.Proofs.Code.Coded
import Labyrinth.Machine.Linked
import Mathlib.Data.List.Nodup
import Std.Data.String.ToNat

/-!
# Where lines stand

`StandsAt l a c`: the list `c` is a part of the list `l`, from the place `a` on. Labels have distinct
numbers and functions distinct names, so what linking finds is where the label or the function of the
program stands.
-/

namespace Labyrinth

section StandsAt

variable {α : Type} {l c d : List α} {a : Nat} {x : α}

def StandsAt (l : List α) (a : Nat) (c : List α) : Prop :=
  ∃ before after, l = before ++ c ++ after ∧ before.length = a

namespace StandsAt

theorem whole (l : List α) : StandsAt l 0 l := ⟨[], [], by simp, rfl⟩

theorem left (h : StandsAt l a (c ++ d)) : StandsAt l a c := by
  obtain ⟨before, after, rfl, hl⟩ := h
  exact ⟨before, d ++ after, by simp, hl⟩

theorem right (h : StandsAt l a (c ++ d)) : StandsAt l (a + c.length) d := by
  obtain ⟨before, after, rfl, rfl⟩ := h
  exact ⟨before ++ c, after, by simp, by simp⟩

theorem tail (h : StandsAt l a (x :: c)) : StandsAt l (a + 1) c := right (c := [x]) h

theorem trans {b : Nat} (h : StandsAt l a c) (h' : StandsAt c b d) : StandsAt l (a + b) d := by
  obtain ⟨before, after, rfl, rfl⟩ := h
  obtain ⟨before', after', rfl, rfl⟩ := h'
  exact ⟨before ++ before', after' ++ after, by simp, by simp⟩

theorem getElem? (h : StandsAt l a (x :: c)) : l[a]? = some x := by
  obtain ⟨before, after, rfl, rfl⟩ := h
  simp

theorem of_getElem? (h : l[a]? = some x) : ∃ c, StandsAt l a (x :: c) := by
  obtain ⟨ha, rfl⟩ := List.getElem?_eq_some_iff.mp h
  refine ⟨l.drop (a + 1), l.take a, [], ?_, List.length_take_of_le (Nat.le_of_lt ha)⟩
  rw [← List.drop_eq_getElem_cons ha, List.take_append_drop, List.append_nil]

theorem map {β : Type} (f : α → β) (h : StandsAt l a c) : StandsAt (l.map f) a (c.map f) := by
  obtain ⟨before, after, rfl, rfl⟩ := h
  exact ⟨before.map f, after.map f, by simp, by simp⟩

end StandsAt

/-- An entry whose key stands only there is found where it stands. -/
theorem findIdx?_of_nodup {β : Type} [DecidableEq β] {g : α → Option β} {b : β} :
    ∀ {l : List α} {a : Nat}, (l.filterMap g).Nodup → l[a]? = some x → g x = some b →
      l.findIdx? (fun y => g y = some b) = some a
  | y :: l, 0, _, h, hx => by
    obtain rfl : y = x := by simpa using h
    simp [List.findIdx?_cons, hx]
  | y :: l, a + 1, hn, h, hx => by
    have h : l[a]? = some x := by simpa using h
    have hmem : b ∈ l.filterMap g := List.mem_filterMap.mpr ⟨x, List.mem_of_getElem? h, hx⟩
    rw [List.findIdx?_cons]
    cases hy : g y with
    | none =>
      rw [List.filterMap_cons_none hy] at hn
      simp [findIdx?_of_nodup hn h hx]
    | some b' =>
      rw [List.filterMap_cons_some hy] at hn
      have hne : b' ≠ b := by
        rintro rfl
        exact (List.nodup_cons.mp hn).1 hmem
      simp [hne, findIdx?_of_nodup (List.nodup_cons.mp hn).2 h hx]

end StandsAt

/-! ### Labels and heads of functions -/

theorem labelName_injective {m n : Nat} (h : labelName m = labelName n) : m = n :=
  Nat.repr_injective ((String.append_right_inj "L").mp h)

namespace Instruction

def label? : Instruction → Option String
  | .label name => some name
  | _ => none

def head? : Instruction → Option String
  | .func name _ => some name
  | _ => none

end Instruction

theorem Code.getElem?_link_of_standsAt {code rest : Code} {a : Nat} {i : Instruction}
    (h : StandsAt code a (i :: rest)) : code.link[a]? = some (Op.ofInstruction code i) := by
  simp [Code.link, h.getElem?]

theorem Code.labelAddress?_eq (code : Code) (name : String) :
    code.labelAddress? name = code.findIdx? fun i => i.label? = some name := by
  unfold Code.labelAddress?
  congr 1
  funext i
  cases i <;> simp [Instruction.label?]

theorem Code.entry?_eq (code : Code) (name : String) :
    code.entry? name = (code.findIdx? fun i => i.head? = some name).map (· + 1) := by
  unfold Code.entry?
  congr 2
  funext i
  cases i <;> simp [Instruction.head?]

namespace Line

def labels (ls : List Line) : List String := (code ls).filterMap Instruction.label?

def heads (ls : List Line) : List String := (code ls).filterMap Instruction.head?

variable {ls rs : List Line} {n n' n'' : Nat}

@[simp] theorem labels_append : labels (ls ++ rs) = labels ls ++ labels rs := by simp [labels]

@[simp] theorem heads_append : heads (ls ++ rs) = heads ls ++ heads rs := by simp [heads]

/-- The labels among the lines have distinct numbers from `n` up to `n'`. -/
structure Numbered (n n' : Nat) (ls : List Line) : Prop where
  le : n ≤ n'
  range : ∀ l ∈ labels ls, ∃ k, n ≤ k ∧ k < n' ∧ l = labelName k
  nodup : (labels ls).Nodup

namespace Numbered

theorem of_nil {c : List Line} (h : labels c = []) (n : Nat) : Numbered n n c :=
  ⟨Nat.le_refl n, by simp [h], by simp [h]⟩

theorem label (n : Nat) : Numbered n (n + 1) [.plain (.label (labelName n))] where
  le := Nat.le_succ n
  range := by
    intro l hl
    exact ⟨n, Nat.le_refl n, Nat.lt_succ_self n, by simpa [labels, Instruction.label?] using hl⟩
  nodup := by simp [labels, Instruction.label?]

theorem append (h : Numbered n n' ls) (h' : Numbered n' n'' rs) : Numbered n n'' (ls ++ rs) where
  le := Nat.le_trans h.le h'.le
  range := by
    intro l hl
    rw [labels_append] at hl
    rcases List.mem_append.mp hl with hl | hl
    · obtain ⟨k, hk, hk', rfl⟩ := h.range l hl
      exact ⟨k, hk, Nat.lt_of_lt_of_le hk' h'.le, rfl⟩
    · obtain ⟨k, hk, hk', rfl⟩ := h'.range l hl
      exact ⟨k, Nat.le_trans h.le hk, hk', rfl⟩
  nodup := by
    rw [labels_append]
    refine List.Nodup.append h.nodup h'.nodup fun l hl hl' => ?_
    obtain ⟨k, _, hk, rfl⟩ := h.range l hl
    obtain ⟨k', hk', _, he⟩ := h'.range _ hl'
    obtain rfl := labelName_injective he
    omega

theorem swap (h : Numbered n n' (ls ++ rs)) : Numbered n n' (rs ++ ls) where
  le := h.le
  range := by
    intro l hl
    refine h.range l ?_
    rw [labels_append] at hl ⊢
    exact List.mem_append.mpr (List.mem_append.mp hl).symm
  nodup := by
    have hn := h.nodup
    rw [labels_append] at hn ⊢
    exact List.nodup_append_comm.mp hn

end Numbered

end Line

open Line

variable {p : Program} {Γ : Context}

theorem Line.labels_widening (slot ty : Ty) : labels (widening slot ty) = [] := by
  unfold widening
  split <;> rfl

theorem Line.heads_widening (slot ty : Ty) : heads (widening slot ty) = [] := by
  unfold widening
  split <;> rfl

mutual

theorem Expr.Coded.labels_heads {e : Expr} {ty : Ty} {ls : List Line} :
    e.Coded p Γ ty ls → labels ls = [] ∧ heads ls = []
  | .int => ⟨rfl, rfl⟩
  | .float => ⟨rfl, rfl⟩
  | .bool => ⟨rfl, rfl⟩
  | .var _ _ => ⟨rfl, rfl⟩
  | .binary hl hr _ => by
    simp only [labels_append, heads_append, hl.labels_heads, hr.labels_heads]
    exact ⟨rfl, rfl⟩
  | .unary (o := o) he _ => by
    simp only [labels_append, heads_append, he.labels_heads]
    cases o <;> exact ⟨rfl, rfl⟩
  | .call _ _ _ ha => by
    simp only [labels_append, heads_append, ha.labels_heads]
    exact ⟨rfl, rfl⟩

theorem Expr.CodedArgs.labels_heads {slots : List Slot} {args : List Expr} {tys : List Ty}
    {ls : List Line} : Expr.CodedArgs p Γ slots args tys ls → labels ls = [] ∧ heads ls = []
  | .nil => ⟨rfl, rfl⟩
  | .cons he _ _ hes => by
    simp only [labels_append, heads_append, he.labels_heads, labels_widening, heads_widening,
      hes.labels_heads]
    exact ⟨rfl, rfl⟩

end

theorem Expr.CodedInto.labels_heads {e : Expr} {slot : Ty} {ls : List Line}
    (h : e.CodedInto p Γ slot ls) : labels ls = [] ∧ heads ls = [] := by
  obtain ⟨he, _⟩ := h
  simp only [labels_append, heads_append, he.labels_heads, labels_widening, heads_widening]
  exact ⟨rfl, rfl⟩

mutual

theorem Stmt.Coded.numbered {Γ : Context} {n n' : Nat} {s : Stmt} {ls : List Line} :
    s.Coded p Γ n n' ls → Numbered n n' ls
  | .declare hi _ _ => .of_nil (by rw [labels_append, hi.labels_heads.1]; rfl) n
  | .assign _ _ hv => .of_nil (by rw [labels_append, hv.labels_heads.1]; rfl) n
  | .cond (c := c) ht hb => by
    have htest : Numbered (n + 1) (n + 1)
        (c ++ [.taking [.bool] (.jumpIfFalse (labelName n))]) :=
      (Numbered.of_nil ht.labels_heads.1 _).append (.of_nil rfl _)
    exact ((Numbered.label n).append (htest.append hb.numbered)).swap
  | .loop (c := c) ht hb => by
    have htest : Numbered (n + 1 + 1) (n + 1 + 1)
        (c ++ [.taking [.bool] (.jumpIfFalse (labelName (n + 1)))]) :=
      (Numbered.of_nil ht.labels_heads.1 _).append (.of_nil rfl _)
    have hbody := (htest.append hb.numbered).append
      (Numbered.of_nil (c := [.plain (.jump (labelName n))]) rfl _)
    have h := (Numbered.label n).append ((Numbered.label (n + 1)).append hbody).swap
    simpa using h
  | .retVoid _ => .of_nil rfl n
  | .ret _ hv => .of_nil (by rw [labels_append, hv.labels_heads.1]; rfl) n
  | .eval hv => .of_nil (by rw [labels_append, hv.labels_heads.1]; rfl) n
  | .block hb => hb.numbered

theorem Stmt.CodedAll.numbered {Γ : Context} {n n' : Nat} {ss : List Stmt} {ls : List Line} :
    Stmt.CodedAll p Γ n ss n' ls → Numbered n n' ls
  | .nil => .of_nil rfl _
  | .cons hs hss => hs.numbered.append hss.numbered

end

mutual

theorem Stmt.Coded.heads {Γ : Context} {n n' : Nat} {s : Stmt} {ls : List Line} :
    s.Coded p Γ n n' ls → heads ls = []
  | .declare hi _ _ => by rw [heads_append, hi.labels_heads.2]; rfl
  | .assign _ _ hv => by rw [heads_append, hv.labels_heads.2]; rfl
  | .cond ht hb => by simp only [heads_append, ht.labels_heads.2, hb.heads]; rfl
  | .loop ht hb => by simp only [heads_append, ht.labels_heads.2, hb.heads]; rfl
  | .retVoid _ => rfl
  | .ret _ hv => by rw [heads_append, hv.labels_heads.2]; rfl
  | .eval hv => by rw [heads_append, hv.labels_heads.2]; rfl
  | .block hb => hb.heads

theorem Stmt.CodedAll.heads {Γ : Context} {n n' : Nat} {ss : List Stmt} {ls : List Line} :
    Stmt.CodedAll p Γ n ss n' ls → heads ls = []
  | .nil => rfl
  | .cons hs hss => by rw [heads_append, hs.heads, hss.heads]; rfl

end

/-! ### The places of a program's labels and functions -/

theorem Function.labels_heads_params (f : Function) :
    labels (f.params.reverse.map fun x => .taking [x.ty] (.store x.name)) = [] ∧
      heads (f.params.reverse.map fun x => .taking [x.ty] (.store x.name)) = [] := by
  have hstore : ∀ i ∈ Line.code (f.params.reverse.map fun x => .taking [x.ty] (.store x.name)),
      ∃ name, i = .store name := by
    intro i hi
    obtain ⟨l, hl, rfl⟩ := List.mem_map.mp hi
    obtain ⟨x, -, rfl⟩ := List.mem_map.mp hl
    exact ⟨x.name, rfl⟩
  constructor <;> refine List.filterMap_eq_nil_iff.mpr fun i hi => ?_
  all_goals obtain ⟨name, rfl⟩ := hstore i hi; rfl

theorem Function.labels_lines (f : Function) (body : List Line) :
    labels (f.lines body) = labels body := by
  simp only [Function.lines, labels_append, f.labels_heads_params.1]
  exact List.append_nil _

theorem Function.heads_lines (f : Function) {body : List Line} (hb : heads body = []) :
    heads (f.lines body) = [f.name] := by
  simp only [Function.lines, heads_append, f.labels_heads_params.2, hb]
  rfl

theorem Context.function?_addFunction {f : Function} {name : String}
    (h : (Γ.addFunction f).function? name = none) : name ≠ f.name ∧ Γ.function? name = none := by
  rw [Context.function?, Context.addFunction, List.lookup_cons] at h
  split at h
  · cases h
  · next hne => exact ⟨fun he => by simp [he] at hne, h⟩

namespace Program.CodedFrom

variable {Γ : Context} {n : Nat} {ds : Program} {ls : List Line}

theorem numbered (h : CodedFrom p Γ n ds ls) : ∃ n', Numbered n n' ls := by
  induction h with
  | nil => exact ⟨_, .of_nil rfl _⟩
  | @cons Γ n n' f ds body ls hf _ ih =>
    obtain ⟨n'', ih⟩ := ih
    have hb := hf.body.numbered
    have hl : Numbered n n' (f.lines body) :=
      ⟨hb.le, by rw [f.labels_lines]; exact hb.range, by rw [f.labels_lines]; exact hb.nodup⟩
    exact ⟨n'', hl.append ih⟩

theorem heads_eq (h : CodedFrom p Γ n ds ls) :
    heads ls = (ds.functionsFrom Γ).map fun x => x.2.name := by
  induction h with
  | nil => rfl
  | cons hf _ ih => rw [heads_append, Function.heads_lines _ hf.body.heads, ih]; rfl

/-- No function has the name of one that is known before. -/
theorem fresh_heads (h : CodedFrom p Γ n ds ls) :
    (heads ls).Nodup ∧ ∀ name ∈ heads ls, Γ.function? name = none := by
  induction h with
  | nil => exact ⟨List.nodup_nil, nofun⟩
  | cons hf _ ih =>
    obtain ⟨hn, hfree⟩ := ih
    rw [heads_append, Function.heads_lines _ hf.body.heads]
    refine ⟨List.nodup_cons.mpr ⟨fun hm => ?_, hn⟩, fun name hm => ?_⟩
    · exact (Context.function?_addFunction (hfree _ hm)).1 rfl
    · rcases List.mem_cons.mp hm with rfl | hm
      · exact hf.fresh
      · exact (Context.function?_addFunction (hfree _ hm)).2

theorem standsAt {Δ : Context} {f : Function} (h : CodedFrom p Γ n ds ls)
    (hf : (Δ, f) ∈ ds.functionsFrom Γ) :
    ∃ a k k' body, f.Coded p Δ k k' body ∧ StandsAt ls a (f.lines body) := by
  induction h with
  | nil => cases hf
  | @cons Γ n n' g ds body ls hg _ ih =>
    rcases List.mem_cons.mp hf with he | hf
    · cases he
      exact ⟨0, n, n', body, hg, (StandsAt.whole _).left⟩
    · obtain ⟨a, k, k', body', hf, hs⟩ := ih hf
      exact ⟨_, k, k', body', hf, (StandsAt.whole _).right.trans hs⟩

end Program.CodedFrom

namespace Program.Coded

variable {ls rest : List Line} {a : Nat} {name : String}

theorem op_at {l : Line} (h : StandsAt ls a (l :: rest)) :
    (Line.code ls).link[a]? = some (Op.ofInstruction (Line.code ls) l.instruction) :=
  Code.getElem?_link_of_standsAt (h.map instruction)

theorem mark_at (hp : p.Coded ls) {l : Line} (h : StandsAt ls a (l :: rest)) :
    p.marks[a]? = some l.mark := by
  simp [hp.marks_eq, Line.marks, h.getElem?]

theorem labelAddress?_of_getElem? (hp : p.Coded ls) (h : (Line.code ls)[a]? = some (.label name)) :
    (Line.code ls).labelAddress? name = some a := by
  obtain ⟨n', hn⟩ := CodedFrom.numbered hp
  rw [Code.labelAddress?_eq]
  exact findIdx?_of_nodup hn.nodup h rfl

theorem entry?_of_getElem? (hp : p.Coded ls) {arity : Nat}
    (h : (Line.code ls)[a]? = some (.func name arity)) :
    Code.entry? (Line.code ls) name = some (a + 1) := by
  rw [Code.entry?_eq, findIdx?_of_nodup (CodedFrom.fresh_heads hp).1 h rfl]
  rfl

theorem labelAddress?_eq (hp : p.Coded ls) (h : StandsAt ls a (.plain (.label name) :: rest)) :
    (Line.code ls).labelAddress? name = some a :=
  hp.labelAddress?_of_getElem? (h.map instruction).getElem?

/-- Where a function of the program stands. -/
theorem standsAt (hp : p.Coded ls) {f : Function} (hf : (Γ, f) ∈ p.functions) :
    ∃ a n n' body, f.Coded p Γ n n' body ∧ StandsAt ls a (f.lines body) ∧
      Code.entry? (Line.code ls) f.name = some (a + 1) := by
  obtain ⟨a, n, n', body, hc, hs⟩ := CodedFrom.standsAt hp hf
  have hhead : (Line.code ls)[a]? = some (.func f.name f.params.length) :=
    (hs.map instruction).getElem?
  exact ⟨a, n, n', body, hc, hs, hp.entry?_of_getElem? hhead⟩

theorem entry?_eq_none (hp : p.Coded ls) :
    Code.entry? (Line.code ls) name = none ↔ ∀ x ∈ p.functions, x.2.name ≠ name := by
  have hheads : heads ls = p.functions.map fun x => x.2.name := CodedFrom.heads_eq hp
  rw [Code.entry?_eq, Option.map_eq_none_iff, List.findIdx?_eq_none_iff]
  constructor
  · intro h x hx he
    have hm : name ∈ heads ls := hheads ▸ List.mem_map.mpr ⟨x, hx, he⟩
    obtain ⟨i, hi, hn⟩ := List.mem_filterMap.mp hm
    simpa [hn] using h i hi
  · intro h i hi
    have hn : name ∉ heads ls := by
      rw [hheads]
      intro hm
      obtain ⟨x, hx, he⟩ := List.mem_map.mp hm
      exact h x hx he
    exact decide_eq_false fun he => hn (List.mem_filterMap.mpr ⟨i, hi, he⟩)

end Program.Coded

end Labyrinth
