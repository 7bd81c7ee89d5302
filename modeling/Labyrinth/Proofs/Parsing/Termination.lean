import Mathlib.Data.Prod.Lex
import Mathlib.Logic.Relation
import Labyrinth.Proofs.Parsing.Recursion

/-!
# The parser ends

A reader calls another where what it does depends on the outcome of that (`Parser.Calls`). Every call is made
onward, and one cannot go onward without end (`Parser.wellFounded_calls`). So the parser ends, whatever the
tokens are and also where they have no end of input (`Parser.terminates`).
-/

namespace Labyrinth

namespace Parser

variable {α : Type} {a b c : Activity}

/-- What the reader at `a` does hangs on what the reader at `b` does: another outcome there may change it. -/
def Calls (a b : Activity) : Prop :=
  ∃ call : ∀ k : Task, Parser k.Value, (∀ c ≠ b, Same c.cursor (run c.task) (call c.task)) ∧
    ¬Same a.cursor (run a.task) (body call a.task)

theorem Calls.onward (h : Calls a b) : Onward a b := by
  obtain ⟨call, hcall, hne⟩ := h
  by_contra hno
  refine hne (body_congr fun k t honward => hcall ⟨k, t⟩ ?_)
  rintro rfl
  exact hno honward

namespace Onward

theorem trans (h : Onward a b) (h' : Onward b c) : Onward a c where
  suffix := h'.suffix.trans h.suffix
  depth := by
    have hd := h.depth
    have hd' := h'.depth
    omega
  height := by
    have hh := h.height
    have hh' := h'.height
    omega
  moves := by
    have hlen := h.suffix.length_le
    have hlen' := h'.suffix.length_le
    have hd := h.depth
    have hd' := h'.depth
    have hh := h.height
    have hh' := h'.height
    have hmoves := h.moves
    have hmoves' := h'.moves
    omega

end Onward

/-- What is left to be taken, to be counted and to be called. -/
def Activity.measure (a : Activity) : Nat ×ₗ Nat ×ₗ Nat :=
  toLex (a.cursor.lexemes.length,
    toLex ((maxNesting - a.cursor.depth) + (maxHeight - a.cursor.height), a.task.rank))

theorem Onward.measure_lt (h : Onward a b) : b.measure < a.measure := by
  have hlen := h.suffix.length_le
  have hd := h.depth
  have hh := h.height
  have hmoves := h.moves
  simp only [Activity.measure, Prod.Lex.toLex_lt_toLex]
  omega

theorem wellFounded_onward : WellFounded fun b a => Onward a b :=
  Subrelation.wf (r := InvImage (· < ·) Activity.measure) (fun h => h.measure_lt)
    (InvImage.wf _ wellFounded_lt)

/-- The same reader, whatever a chain of operators has read already. -/
def Task.Like : Task → Task → Prop
  | chain n _, chain m _ => n = m
  | k, k' => k = k'

theorem Task.Like.rank_eq {k k' : Task} (h : k.Like k') : k.rank = k'.rank := by
  unfold Like at h
  split at h
  · rw [rank, rank, h]
  · rw [h]

theorem wellFounded_calls : WellFounded fun b a => Calls a b :=
  Subrelation.wf (fun h => h.onward) wellFounded_onward

/-- What the readers do without bounds leaves no other outcome. -/
theorem eq_run {call : ∀ k : Task, Parser k.Value} (hcall : ∀ k, call k = body call k) : call = run := by
  have hall : ∀ a : Activity, Same a.cursor (run a.task) (call a.task) := by
    intro a
    induction a using wellFounded_onward.induction with
    | _ a ih =>
      rw [hcall]
      exact body_congr fun k t h => ih ⟨k, t⟩ h
  funext k s
  exact hall ⟨k, s⟩

theorem onward_of_transGen (h : Relation.TransGen Calls a b) : Onward a b := by
  induction h with
  | single h => exact h.onward
  | tail _ h ih => exact ih.trans h.onward

/-! ### The last token -/

theorem passes_commas {item : Parser α} {p : Token → Prop} (hitem : item.Passes p) :
    (commas item).Passes p := by
  refine .first hitem fun a => .get (p := fun _ => True) fun s => ?_
  split
  · next ht => exact .taking ht (.second (.sepByComma hitem) fun as => .pure (a :: as)) id
  · exact .pure .refl

/-- Behind arguments of a single token that is not left behind there is no parenthesis. -/
theorem args_end {s t : Cursor} {as : List Expr} (h : run .args s = .ok as t) :
    t.lexemes.length < s.lexemes.length ∨ ∃ e u, expectMark .closeParen t = .error e u := by
  by_cases hclose : t.token = .punctuation .closeParen
  · have hpast := (passes_commas (passes_expression _) s).ok h
    exact .inl (hpast.length_lt (hclose ▸ id))
  · refine .inr ⟨⟨.unexpected (.token (.punctuation .closeParen)) t.token, t.loc⟩, t, ?_⟩
    show (if _ then advance else unexpected _ : Parser Unit) t = _
    rw [if_neg hclose]
    rfl

/-- A program ends in front of an end of input. -/
theorem meets_program (s : Cursor) :
    program.Meets s (fun _ t => t.token = .endOfInput ∧ s.Past (fun _ => True) t) fun _ => True := by
  generalize hn : s.lexemes.length = n
  induction n using Nat.strong_induction_on generalizing s with
  | _ n ih =>
    have hstep : (programStep decl program).Meets s
        (fun _ t => t.token = .endOfInput ∧ s.Past (fun _ => True) t) fun _ => True := by
      refine .get ?_
      split
      · next ht => exact .pure ⟨ht, .refl⟩
      · refine .bind (passes_decl s) fun d t ht => .bind (ih _ (hn ▸ ht.length_lt id) t rfl) ?_
        rintro ds u ⟨hend, hu⟩
        exact .pure ⟨hend, (ht.trans hu).mono fun _ _ => trivial⟩
    unfold Meets at hstep ⊢
    rwa [program_eq s] at hstep

theorem eq_last_of_suffix {body us : List Lexeme} {l : Lexeme} {i : Location}
    (hsuffix : l :: us <:+ body ++ [⟨.endOfInput, i⟩]) (hl : l.token = .endOfInput)
    (hbody : ∀ l ∈ body, l.token ≠ .endOfInput) : l :: us = [⟨.endOfInput, i⟩] := by
  obtain ⟨front, he⟩ := hsuffix
  rcases List.append_eq_append_iff.mp he with ⟨more, rfl, hmore⟩ | ⟨more, rfl, hmore⟩
  · cases more with
    | nil => simpa using hmore
    | cons x more =>
      obtain ⟨rfl, -⟩ := List.cons.inj hmore
      exact absurd hl (hbody l (by simp))
  · cases more with
    | nil => simpa using hmore.symm
    | cons x more =>
      have hlen := congrArg List.length hmore
      simp at hlen

/-- The readers do what they do without bounds, and nothing else is done so. No call leads back to the same
reader, directly or through others, unless the position has moved forward or a counter has gone up towards its
limit, and arguments that are read without moving forward are an error. A program is read up to an end of input,
and up to the last token if there is no other. -/
theorem terminates :
    (∀ k, run k = body run k) ∧ (∀ call, (∀ k, call k = body call k) → call = run) ∧
    (WellFounded fun b a => Calls a b) ∧
    (∀ a b, Relation.TransGen Calls a b → a.task.Like b.task →
      b.cursor.lexemes <:+ a.cursor.lexemes ∧
        (b.cursor.lexemes.length < a.cursor.lexemes.length ∨
          a.cursor.depth < b.cursor.depth ∧ b.cursor.depth ≤ maxNesting ∨
          a.cursor.height < b.cursor.height ∧ b.cursor.height ≤ maxHeight)) ∧
    (∀ s as t, run .args s = .ok as t →
      t.lexemes.length < s.lexemes.length ∨ ∃ e u, expectMark .closeParen t = .error e u) ∧
    ∀ ls p t, program { lexemes := ls } = .ok p t → t.token = .endOfInput ∧
      ∀ body i, ls = body ++ [⟨.endOfInput, i⟩] → (∀ l ∈ body, l.token ≠ .endOfInput) →
        t.lexemes = [⟨.endOfInput, i⟩] := by
  refine ⟨run_eq_body, fun call => eq_run, wellFounded_calls, fun a b h hlike => ?_, fun s as t => args_end,
    fun ls p t h => ?_⟩
  · have honward := onward_of_transGen h
    have hrank := hlike.rank_eq
    refine ⟨honward.suffix, ?_⟩
    have hd := honward.depth
    have hh := honward.height
    have hmoves := honward.moves
    omega
  · obtain ⟨hend, hpast⟩ := (meets_program { lexemes := ls }).ok h
    refine ⟨hend, ?_⟩
    rintro body i rfl hbody
    have hsuffix : t.lexemes <:+ body ++ [⟨.endOfInput, i⟩] := hpast.suffix
    have hne : t.lexemes ≠ [] := fun hnil =>
      List.append_ne_nil_of_right_ne_nil body (List.cons_ne_nil _ _) (hpast.remains.nil hnil)
    obtain ⟨l, us, hl⟩ := List.exists_cons_of_ne_nil hne
    rw [hl] at hsuffix ⊢
    rw [Cursor.token_of_lexemes hl] at hend
    exact eq_last_of_suffix hsuffix hend hbody

/-- A minus sign and no end of input, with so many levels open. -/
def minus (levels : Nat) : Cursor :=
  { lexemes := [⟨.operator .minus, .start⟩], depth := levels, height := levels }

/-- The readers, but for an outcome of the operand in the second of two levels. -/
def strayed : ∀ k : Task, Parser k.Value
  | .operand => fun s =>
    if s.lexemes = (minus 1).lexemes ∧ s.depth = 1 ∧ s.height = 1 then
      .ok (.bool .start true) s
    else operand maxNesting s
  | k => run k

/-- The sign is never left behind, and the reader of operands calls itself in front of it. -/
theorem calls_minus : Calls ⟨.operand, minus 0⟩ ⟨.operand, minus 1⟩ := by
  refine ⟨strayed, ?_, fun hsame => ?_⟩
  · rintro ⟨k, s⟩ hne
    cases k with
    | operand =>
      refine if_neg ?_
      rintro ⟨hl, hd, hh⟩
      exact hne (by cases s; cases hl; cases hd; cases hh; rfl)
    | _ => exact .refl _
  · have hok : body strayed .operand (minus 0) = .ok (.unary .start .neg (.bool .start true)) (minus 0) := rfl
    -- without moving only a leaf is read
    have hpasses : (run .operand).Passes Token.IsLeaf := passes_operand maxNesting
    have hrun : body strayed .operand (minus 0) = run .operand (minus 0) := hsame
    exact (Meets.ok (hpasses _) (hrun.symm.trans hok)).stays rfl

/-- Another level is open there. -/
theorem terminates_minus : Relation.TransGen Calls ⟨.operand, minus 0⟩ ⟨.operand, minus 1⟩ ∧
    (minus 1).lexemes = (minus 0).lexemes ∧
      ((minus 0).depth < (minus 1).depth ∧ (minus 1).depth ≤ maxNesting ∨
        (minus 0).height < (minus 1).height ∧ (minus 1).height ≤ maxHeight) := by
  refine ⟨.single calls_minus, rfl, ?_⟩
  exact (terminates.2.2.2.1 _ _ (.single calls_minus) rfl).2.resolve_left (Nat.lt_irrefl _)

end Parser

end Labyrinth
