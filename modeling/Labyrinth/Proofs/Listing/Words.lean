import Labyrinth.Code.Listing
import Mathlib.Data.List.Infix

/-!
# Words of a line

A text is `Text.Legible` if it can be a word of a listing: it has a character, no blanks, and no two
slashes in a row. A line of legible words is cut into these words again (`Code.words_line`), and all
words that a line is cut into are legible (`Code.legible_of_mem_words`).
-/

namespace Labyrinth

namespace Text

variable {sep : Char → Bool} {s c : Char} {p w cs : List Char} {ps ws : List (List Char)}

/-! ### Pieces -/

theorem pieces_append (hs : sep s) (hp : ∀ c ∈ p, sep c = false) (cs : List Char) :
    pieces sep (p ++ s :: cs) = p :: pieces sep cs := by
  induction p with
  | nil => simp [pieces, hs]
  | cons c p ih =>
    obtain ⟨hc, hp⟩ := List.forall_mem_cons.mp hp
    simp [pieces, hc, ih hp]

theorem pieces_eq_singleton (hp : ∀ c ∈ p, sep c = false) : pieces sep p = [p] := by
  induction p with
  | nil => rfl
  | cons c p ih =>
    obtain ⟨hc, hp⟩ := List.forall_mem_cons.mp hp
    simp [pieces, hc, ih hp]

theorem pieces_intercalate (hs : sep s) (hp : ∀ c ∈ p, sep c = false)
    (hps : ∀ q ∈ ps, ∀ c ∈ q, sep c = false) : pieces sep ([s].intercalate (p :: ps)) = p :: ps := by
  induction ps generalizing p with
  | nil => simpa using pieces_eq_singleton hp
  | cons q ps ih =>
    obtain ⟨hq, hps⟩ := List.forall_mem_cons.mp hps
    rw [List.intercalate_cons_cons, List.append_assoc, List.singleton_append, pieces_append hs hp,
      ih hq hps]

/-- The pieces stand in the text, and the first of them at its front. -/
theorem exists_pieces_eq_cons (sep : Char → Bool) (cs : List Char) :
    ∃ p ps, pieces sep cs = p :: ps ∧ p <+: cs ∧ ∀ q ∈ ps, q <:+: cs := by
  induction cs with
  | nil => exact ⟨[], [], rfl, List.prefix_rfl, nofun⟩
  | cons c cs ih =>
    obtain ⟨p, ps, he, hp, hps⟩ := ih
    have hps (q : List Char) (hq : q ∈ ps) : q <:+: c :: cs :=
      (hps q hq).trans (List.suffix_cons c cs).isInfix
    rw [pieces]
    split
    · rw [he]
      refine ⟨[], p :: ps, rfl, List.nil_prefix, List.forall_mem_cons.mpr ⟨?_, hps⟩⟩
      exact hp.isInfix.trans (List.suffix_cons c cs).isInfix
    · rw [he]
      exact ⟨c :: p, ps, rfl, (List.prefix_cons_inj c).mpr hp, hps⟩

theorem infix_of_mem_pieces (h : p ∈ pieces sep cs) : p <:+: cs := by
  obtain ⟨q, ps, he, hq, hps⟩ := exists_pieces_eq_cons sep cs
  rw [he] at h
  rcases List.mem_cons.mp h with rfl | h
  · exact hq.isInfix
  · exact hps p h

/-! ### Legible words -/

/-- A text that can be a word of a listing. -/
structure Legible (w : List Char) : Prop where
  ne_nil : w ≠ []
  not_blank : ∀ c ∈ w, isBlank c = false
  not_comment : ¬ ['/', '/'] <:+: w

instance (w : List Char) : Decidable (Legible w) :=
  decidable_of_iff (w ≠ [] ∧ w.all (!isBlank ·) ∧ ¬ ['/', '/'] <:+: w)
    ⟨fun ⟨hne, hblank, hcomment⟩ => ⟨hne, by simpa using hblank, hcomment⟩,
      fun h => ⟨h.ne_nil, by simpa using h.not_blank, h.not_comment⟩⟩

/-- A character that is neither blank nor a slash. -/
def isGraphic (c : Char) : Bool := !isBlank c && c ≠ '/'

theorem legible_of_graphic (hne : w ≠ []) (h : ∀ c ∈ w, isGraphic c) : Legible w where
  ne_nil := hne
  not_blank := by
    intro c hc
    have hgraphic := h c hc
    simp only [isGraphic, Bool.and_eq_true, Bool.not_eq_true'] at hgraphic
    exact hgraphic.1
  not_comment := by
    intro hslashes
    have hgraphic := h '/' (hslashes.subset List.mem_cons_self)
    simp [isGraphic] at hgraphic

theorem words_intercalate (h : ∀ w ∈ ws, Legible w) : words ([' '].intercalate ws) = ws := by
  cases ws with
  | nil => rfl
  | cons w ws =>
    obtain ⟨hw, hws⟩ := List.forall_mem_cons.mp h
    rw [words, pieces_intercalate (by decide) hw.not_blank fun q hq => (hws q hq).not_blank]
    refine List.filter_eq_self.mpr fun q hq => ?_
    simpa using (h q hq).ne_nil

end Text

namespace Code

open Text

variable {c : Char} {w cs line : List Char} {ws : List (List Char)}

/-! ### Comments -/

theorem beforeComment_eq_self (h : ¬ ['/', '/'] <:+: cs) : beforeComment cs = cs := by
  induction cs with
  | nil => rfl
  | cons c cs ih =>
    rw [List.infix_cons_iff, not_or] at h
    obtain ⟨hfront, hrest⟩ := h
    rw [beforeComment, if_neg, ih hrest]
    rintro ⟨rfl, hhead⟩
    obtain ⟨ds, rfl⟩ := List.head?_eq_some_iff.mp hhead
    exact hfront ⟨ds, rfl⟩

theorem head?_beforeComment (h : (beforeComment cs).head? = some c) : cs.head? = some c := by
  cases cs with
  | nil => cases h
  | cons d cs =>
    rw [beforeComment] at h
    split at h
    · cases h
    · exact h

theorem not_infix_beforeComment (cs : List Char) : ¬ ['/', '/'] <:+: beforeComment cs := by
  induction cs with
  | nil => simp [beforeComment]
  | cons c cs ih =>
    rw [beforeComment]
    split
    · simp
    · next hc =>
      rw [List.infix_cons_iff, not_or]
      refine ⟨fun hfront => ?_, ih⟩
      rw [List.cons_prefix_cons] at hfront
      obtain ⟨rfl, ds, hds⟩ := hfront
      exact hc ⟨rfl, head?_beforeComment (by rw [← hds]; rfl)⟩

/-- A blank keeps the slashes on its two sides apart. -/
theorem not_infix_append_blank (hw : ¬ ['/', '/'] <:+: w) (hcs : ¬ ['/', '/'] <:+: cs) :
    ¬ ['/', '/'] <:+: w ++ ' ' :: cs := by
  induction w with
  | nil => simpa [List.infix_cons_iff] using hcs
  | cons c w ih =>
    rw [List.infix_cons_iff, not_or] at hw
    obtain ⟨hfront, hw⟩ := hw
    rw [List.cons_append, List.infix_cons_iff, not_or]
    refine ⟨fun h => hfront ?_, ih hw⟩
    rw [List.cons_prefix_cons] at h ⊢
    obtain ⟨hc, h⟩ := h
    cases w with
    | nil => simp at h
    | cons d w => simpa using And.intro hc h

theorem not_infix_intercalate (h : ∀ w ∈ ws, Legible w) : ¬ ['/', '/'] <:+: [' '].intercalate ws := by
  induction ws with
  | nil => simp
  | cons w ws ih =>
    obtain ⟨hw, hws⟩ := List.forall_mem_cons.mp h
    cases ws with
    | nil => simpa using hw.not_comment
    | cons v ws =>
      rw [List.intercalate_cons_cons, List.append_assoc, List.singleton_append]
      exact not_infix_append_blank hw.not_comment (ih hws)

/-! ### Lines -/

theorem words_line (h : ∀ w ∈ ws, Legible w) : words (beforeComment ([' '].intercalate ws)) = ws := by
  rw [beforeComment_eq_self (not_infix_intercalate h), words_intercalate h]

theorem legible_of_mem_words (h : w ∈ words (beforeComment line)) : Legible w := by
  obtain ⟨hmem, hne⟩ := List.mem_filter.mp h
  constructor
  case ne_nil => simpa using hne
  case not_blank => exact fun c hc => not_sep_of_mem_pieces hmem hc
  case not_comment =>
    exact fun hslashes => not_infix_beforeComment line (hslashes.trans (infix_of_mem_pieces hmem))

/-- A line of legible words has no end of line inside. -/
theorem ne_newline_of_mem_intercalate (h : ∀ w ∈ ws, Legible w) (hc : c ∈ [' '].intercalate ws) :
    c ≠ '\n' := by
  rintro rfl
  induction ws with
  | nil => simp at hc
  | cons w ws ih =>
    obtain ⟨hw, hws⟩ := List.forall_mem_cons.mp h
    have hnot : '\n' ∉ w := fun hmem => absurd (hw.not_blank _ hmem) (by decide)
    cases ws with
    | nil => exact hnot (by simpa using hc)
    | cons v ws =>
      rw [List.intercalate_cons_cons, List.append_assoc, List.mem_append] at hc
      rcases hc with hc | hc
      · exact hnot hc
      · exact ih hws (by simpa using hc)

end Code

end Labyrinth
