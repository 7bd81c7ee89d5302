import Labyrinth.Source
import Labyrinth.Proofs.Scanning.Spaced

/-!
# Where a scan fails

A scan fails at the first character at which no token starts (`Token.Startless`). `Token.Halted c rest before`:
the text `before` is white space, comments and tokens up to the character `c`, and no token starts there with
`rest` behind it. Of `rest` no more than its first character counts (`Token.Halted.congr`), so a failed scan
fails in the same way whatever else stands there (`Source.lexemes_error`).
-/

namespace Labyrinth

namespace Text

variable {c : Char} {cs : List Char}

/-- The last line of the text has two slashes in it. -/
def EndsInComment (cs : List Char) : Prop :=
  ∃ before comment, cs = before ++ '/' :: '/' :: comment ∧ '\n' ∉ comment

/-- What is no digit in a number is its point. -/
theorem IsNumber.of_append {front back : List Char} (h : IsNumber (front ++ c :: back))
    (hc : c.isDigit = false) : c = '.' ∧ IsDigits front ∧ IsDigits back := by
  have hno {ds : List Char} (hds : IsDigits ds) : c ∉ ds := fun hmem => by
    rw [hds.2 c hmem] at hc
    cases hc
  rcases h with hdigits | ⟨whole, fraction, hwhole, hfraction, he⟩
  · exact absurd (by simp) (hno hdigits)
  · rcases List.append_eq_append_iff.mp he with ⟨more, rfl, htail⟩ | ⟨more, rfl, htail⟩
    · cases more with
      | nil =>
        obtain ⟨rfl, rfl⟩ := List.cons.inj htail
        exact ⟨rfl, by simpa using hwhole, hfraction⟩
      | cons a more =>
        obtain ⟨rfl, -⟩ := List.cons.inj htail
        exact absurd (by simp) (hno hwhole)
    · cases more with
      | nil =>
        obtain ⟨rfl, rfl⟩ := List.cons.inj htail
        exact ⟨rfl, by simpa using hwhole, hfraction⟩
      | cons a more =>
        obtain ⟨-, rfl⟩ := List.cons.inj htail
        exact absurd (by simp) (hno hfraction)

/-! ### Comments -/

/-- A comment starts with the first character or behind it. -/
theorem EndsInComment.of_cons (h : EndsInComment (c :: cs)) :
    EndsInComment cs ∨ ['/', '/'] <+: c :: cs := by
  obtain ⟨before, comment, he, hno⟩ := h
  cases before with
  | nil => exact .inr ⟨comment, he.symm⟩
  | cons d before => exact .inl ⟨before, comment, (List.cons.inj he).2, hno⟩

theorem EndsInComment.of_append {w : List Char} (hw : '/' ∉ w) (h : EndsInComment (w ++ cs)) :
    EndsInComment cs := by
  induction w with
  | nil => exact h
  | cons c w ih =>
    obtain ⟨hc, hw⟩ := List.ne_and_not_mem_of_not_mem_cons hw
    rcases h.of_cons with h | h
    · exact ih hw h
    · exact absurd (List.cons_prefix_cons.mp h).1 hc

/-- A comment in white space and comments ends there. -/
theorem Blank.not_endsInComment {blank : List Char} (hblank : Blank blank) (h : EndsInComment (blank ++ cs)) :
    EndsInComment cs := by
  induction hblank with
  | nil => exact h
  | @space c _ hc _ ih =>
    have hno : '/' ∉ [c] := by
      rw [List.mem_singleton]
      rintro rfl
      exact absurd hc (by decide)
    exact ih (h.of_append hno)
  | @comment text more _ _ ih =>
    refine ih ?_
    obtain ⟨before, last, he, hlast⟩ := h
    rw [List.append_assoc, List.append_eq_append_iff] at he
    rcases he with ⟨front, rfl, hmore⟩ | ⟨back, -, hback⟩
    · exact ⟨front, last, hmore, hlast⟩
    · -- the newline is not behind the slashes
      have hmem : '\n' ∈ '/' :: '/' :: last := by simp [hback]
      simp [hlast] at hmem

end Text

namespace Token

open Text

variable {w cs blank before rest rest' : List Char} {c : Char} {t : Token} {loc : Location}
  {e : LexicalError}

/-- The characters other than letters and digits with each of which a token starts, whatever stands behind
it. -/
def starters : List Char :=
  ['(', ')', '{', '}', ',', ';', '+', '-', '*', '/', '%', '<', '>', '=', '!']

/-- No token starts with this character in front of the next. -/
def Startless (c : Char) (next : Option Char) : Prop :=
  ¬c.isAlphanum ∧ c ≠ '_' ∧ c ∉ starters ∧ (c = '&' ∨ c = '|' → next ≠ some c)

/-- The characters that are part of a token or not, as the next one is. -/
def hesitant : List Char := ['&', '|', '.']

theorem mem_hesitant (h : c = '&' ∨ c = '|') : c ∈ hesitant := by
  rcases h with rfl | rfl <;> decide

theorem Startless.congr {next next' : Option Char} (h : Startless c next)
    (hnext : c ∈ hesitant → next' = next) : Startless c next' :=
  ⟨h.1, h.2.1, h.2.2.1, fun hc => hnext (mem_hesitant hc) ▸ h.2.2.2 hc⟩

theorem Startless.isWordChar_eq_false {next : Option Char} (h : Startless c next) : isWordChar c = false := by
  simpa [isWordChar, h.2.1] using h.1

/-! ### Characters at which no token starts -/

/-- The texts of the marks are of starters only, but for the two that are a character twice. -/
theorem mem_starters_of_mem_marks : ∀ t ∈ marks,
    t.lexeme.toList = ['&', '&'] ∨ t.lexeme.toList = ['|', '|'] ∨
      t.lexeme.toList.all fun c => c ∈ starters := by
  decide

theorem exists_mark_of_mem_starters (hc : c ∈ starters) : ∃ t ∈ marks, t.lexeme.toList = [c] := by
  have hall : starters.all fun c => marks.any fun t => t.lexeme.toList = [c] := by decide
  simpa using List.all_eq_true.mp hall c hc

theorem mark?_eq_none_iff : mark? (c :: rest) = none ↔
    c ∉ starters ∧ (c = '&' ∨ c = '|' → rest.head? ≠ some c) := by
  have hand : [.operator .and, .operator .or] ⊆ marks := by decide
  simp only [mark?, List.find?_eq_none, List.isPrefixOf_iff_prefix]
  constructor
  · refine fun h => ⟨fun hc => ?_, fun hc hnext => ?_⟩
    · obtain ⟨t, ht, he⟩ := exists_mark_of_mem_starters hc
      exact h t ht (he ▸ List.prefix_append [c] rest)
    · obtain ⟨rest, rfl⟩ := List.head?_eq_some_iff.mp hnext
      have hfront : [c, c] <+: c :: c :: rest := List.prefix_append [c, c] rest
      rcases hc with rfl | rfl
      · exact h (.operator .and) (hand (by decide)) hfront
      · exact h (.operator .or) (hand (by decide)) hfront
  · rintro ⟨hc, hnext⟩ t ht hfront
    rcases mem_starters_of_mem_marks t ht with he | he | hall
    · rw [he] at hfront
      obtain ⟨rfl, more, rfl⟩ := List.cons_prefix_cons.mp hfront
      exact hnext (.inl rfl) rfl
    · rw [he] at hfront
      obtain ⟨rfl, more, rfl⟩ := List.cons_prefix_cons.mp hfront
      exact hnext (.inr rfl) rfl
    · obtain ⟨d, w, he⟩ := List.exists_cons_of_ne_nil (lexeme_ne_nil_of_mem_marks t ht)
      rw [he] at hfront hall
      obtain ⟨rfl, -⟩ := List.cons_prefix_cons.mp hfront
      simp only [List.all_cons, Bool.and_eq_true, decide_eq_true_eq] at hall
      exact hc hall.1

theorem longest?_eq_none_iff : longest? (c :: rest) = none ↔ Startless c rest.head? := by
  rw [Startless, ← mark?_eq_none_iff, longest?]
  by_cases hdigit : c.isDigit
  · simp [hdigit, Char.isAlphanum]
  · by_cases hstart : isWordStart c
    · have hno : c.isAlpha ∨ c = '_' := by simpa [isWordStart] using hstart
      simp only [hdigit, hstart, Char.isAlphanum]
      rcases hno with h | h <;> simp [h]
    · have hno : c.isAlpha = false ∧ c ≠ '_' := by simpa [isWordStart] using hstart
      simp [hdigit, hstart, Char.isAlphanum, hno]

/-! ### Such characters inside of tokens -/

/-- A character at which no token starts stands inside of one only as the point of a number or as the second
character of a mark that has it twice. -/
theorem Spells.of_startless {front back : List Char} {next : Option Char}
    (h : Spells (front ++ c :: back) t) (hc : Startless c next) (hne : front ≠ []) :
    c = '.' ∧ IsDigits front ∧ IsDigits back ∨ (c = '&' ∨ c = '|') ∧ front = [c] := by
  have hword := hc.isWordChar_eq_false
  have hmem : c ∈ front ++ c :: back := by simp
  obtain ⟨d, ds, -, hclass⟩ := h.exists_head
  cases hclass with
  | number _ hnumber =>
    simp only [isWordChar, Char.isAlphanum, Bool.or_eq_false_iff] at hword
    exact .inl (hnumber.of_append hword.1.2)
  | word _ _ hwd =>
    have hall := prefix_takeWhile_isWordChar hwd List.prefix_rfl
    rw [List.all_eq_true.mp List.all_takeWhile c (hall.subset hmem)] at hword
    cases hword
  | mark _ _ ht hlexeme =>
    have hpair {d : Char} (hd : d = '&' ∨ d = '|') (he : front ++ c :: back = [d, d]) :
        (c = '&' ∨ c = '|') ∧ front = [c] := by
      obtain ⟨a, front, rfl⟩ := List.exists_cons_of_ne_nil hne
      obtain ⟨rfl, he⟩ := List.cons.inj he
      cases front with
      | nil => obtain ⟨rfl, -⟩ := List.cons.inj he; exact ⟨hd, rfl⟩
      | cons => simp at he
    rw [hlexeme] at hpair hmem
    rcases mem_starters_of_mem_marks t ht with he | he | hall
    · exact .inr (hpair (.inl rfl) he)
    · exact .inr (hpair (.inr rfl) he)
    · exact absurd (by simpa using List.all_eq_true.mp hall c hmem) hc.2.2.1

/-- A slash in a token is all of it. -/
theorem Spells.eq_slash (h : Spells w t) (hslash : '/' ∈ w) : w = ['/'] := by
  have hmarks : ∀ t ∈ marks, t.lexeme.toList = ['/'] ∨ !t.lexeme.toList.contains '/' := by decide
  obtain ⟨front, back, rfl⟩ := List.append_of_mem hslash
  obtain ⟨_, _, -, hclass⟩ := h.exists_head
  cases hclass with
  | number _ hnumber => exact absurd (hnumber.of_append rfl).1 (by decide)
  | word _ _ hword =>
    have hall := prefix_takeWhile_isWordChar hword List.prefix_rfl
    exact absurd (List.all_eq_true.mp List.all_takeWhile _ (hall.subset hslash)) (by decide)
  | mark _ _ ht he =>
    rw [he] at hslash ⊢
    exact (hmarks t ht).resolve_right (by simpa using hslash)

theorem Longest.of_append (h : t.Longest (cs ++ rest)) (hfront : t.lexeme.toList <+: cs) : t.Longest cs :=
  ⟨h.spells, hfront, fun w u hw hwfront => h.length_le w u hw (hwfront.trans (List.prefix_append cs rest))⟩

/-- What is read in front of such a character does not depend on what stands behind it, but for the next
character. -/
theorem Longest.congr (h : t.Longest (cs ++ c :: rest)) (hfront : t.lexeme.toList <+: cs)
    (hc : Startless c rest.head?) (hnext : c ∈ hesitant → rest'.head? = rest.head?) :
    t.Longest (cs ++ c :: rest') := by
  refine ⟨h.spells, hfront.trans (List.prefix_append cs _), fun w u hw hwfront => ?_⟩
  rcases List.prefix_or_prefix_of_prefix hwfront (List.prefix_append cs (c :: rest')) with hle | ⟨back, rfl⟩
  · exact h.length_le w u hw (hle.trans (List.prefix_append cs _))
  · rw [List.prefix_append_right_inj] at hwfront
    cases back with
    | nil => exact h.length_le _ u hw (by simp)
    | cons d back =>
      obtain ⟨rfl, hback⟩ := List.cons_prefix_cons.mp hwfront
      have hne : cs ≠ [] := fun he => h.spells.ne_nil (List.prefix_nil.mp (he ▸ hfront))
      rcases hw.of_startless hc hne with ⟨rfl, hcs, hdigits⟩ | ⟨-, rfl⟩
      · -- the number with the point and one digit would have been longer
        obtain ⟨a, back, rfl⟩ := List.exists_cons_of_ne_nil hdigits.1
        obtain ⟨more, rfl⟩ := hback
        obtain ⟨rest, rfl⟩ := List.head?_eq_some_iff.mp (hnext (by decide)).symm
        have ha : IsDigits [a] := ⟨List.cons_ne_nil _ _, by simpa using hdigits.head_isDigit⟩
        have hlonger := h.length_le _ _ (.number (.inr ⟨cs, [a], hcs, ha, rfl⟩)) ⟨rest, by simp⟩
        have hle := hfront.length_le
        simp only [List.length_append, List.length_cons, List.length_nil] at hlonger
        omega
      · -- the character alone is no token
        have hlexeme : t.lexeme.toList = [d] := by
          rcases List.prefix_cons_iff.mp hfront with he | ⟨l, he, hl⟩
          · exact absurd he h.spells.ne_nil
          · rw [he, List.prefix_nil.mp hl]
        have hread := (hlexeme ▸ h.spells).longest?
        rw [longest?_eq_none_iff.mpr ⟨hc.1, hc.2.1, hc.2.2.1, fun _ => by simp⟩] at hread
        cases hread

/-! ### White space and comments in front -/

theorem gap_true_append {comment : List Char} (h : '\n' ∉ comment) (cs : List Char) :
    gap true (comment ++ '\n' :: cs) = comment ++ '\n' :: gap false cs := by
  induction comment with
  | nil => rfl
  | cons c comment ih =>
    obtain ⟨hc, h⟩ := List.ne_and_not_mem_of_not_mem_cons h
    rw [List.cons_append, gap, decide_eq_true (Ne.symm hc), ih h]
    rfl

theorem gap_append (h : Blank blank) (cs : List Char) : gap false (blank ++ cs) = blank ++ gap false cs := by
  induction h with
  | nil => rfl
  | @space c _ hc _ ih => rw [List.cons_append, gap, if_pos (isSpace_iff.mpr hc), ih]; rfl
  | @comment text more hno _ ih =>
    have hslash : '\n' ∉ '/' :: text := by simp [hno]
    have hgap : gap true ('/' :: text ++ '\n' :: (more ++ cs)) =
        '/' :: text ++ gap false ('\n' :: more ++ cs) := gap_true_append hslash (more ++ cs)
    have hopen : gap false ('/' :: '/' :: text ++ '\n' :: more ++ cs) =
        '/' :: gap true ('/' :: text ++ '\n' :: (more ++ cs)) := by
      simp [gap, isSpace]
    rw [hopen, hgap, ih]
    simp

theorem gap_cons_eq_nil_iff : gap false (c :: cs) = [] ↔ isSpace c = false ∧ ¬['/', '/'] <+: c :: cs := by
  have hcomment : ['/', '/'] <+: c :: cs ↔ c = '/' ∧ cs.head? = some '/' := by
    cases cs <;> simp [List.cons_prefix_cons, eq_comm]
  rw [hcomment, gap]
  split
  · next h => simp [h]
  · next h => simp [h]

/-- What stands behind the white space and the comments in front of a text is neither. -/
theorem gap_eq_nil_of_drop_gap (h : cs.drop (gap false cs).length = c :: rest) :
    gap false (c :: rest) = [] := by
  obtain ⟨he, hblank, -⟩ := blank_of_drop_gap h
  have hgap := gap_append hblank (c :: rest)
  rwa [← he, List.self_eq_append_right] at hgap

/-- Behind the white space and the comments in front of a token nothing is skipped. -/
theorem Spells.gap_append (h : Spells w t) (hblank : Blank blank) (hcomment : ¬['/', '/'] <+: w ++ cs) :
    gap false (blank ++ (w ++ cs)) = blank := by
  obtain ⟨c, w, rfl⟩ := List.exists_cons_of_ne_nil h.ne_nil
  have hnil := gap_cons_eq_nil_iff.mpr ⟨h.isSpace_eq_false c List.mem_cons_self, hcomment⟩
  rw [Token.gap_append hblank]
  simpa using hnil

/-- Two slashes stand in front of the character or behind it, if it is none. -/
theorem comment_prefix_iff (hc : c ≠ '/') : ['/', '/'] <+: cs ++ c :: rest ↔ ['/', '/'] <+: cs := by
  match cs with
  | [] => simp [hc.symm]
  | [_] => simp [List.cons_prefix_cons, hc.symm]
  | _ :: _ :: _ => simp [List.cons_prefix_cons]

/-! ### The text in front of the failure -/

/-- In front of the character `c` with `rest` behind it the text is white space, comments and tokens, and no
token starts there. -/
inductive Halted (c : Char) (rest : List Char) : List Char → Prop
  | here {blank : List Char} : Blank blank → isSpace c = false → Startless c rest.head? →
      Halted c rest blank
  | token {blank before : List Char} {t : Token} : Blank blank →
      t.Longest (t.lexeme.toList ++ before ++ c :: rest) →
      ¬['/', '/'] <+: t.lexeme.toList ++ before ++ c :: rest → Halted c rest before →
      Halted c rest (blank ++ (t.lexeme.toList ++ before))

theorem halted_of_scanFrom (h : scanFrom loc cs = .error e) : ∃ before rest,
    cs = before ++ e.char :: rest ∧ e.loc = loc.afterAll before ∧ Halted e.char rest before := by
  fun_induction scanFrom loc cs with
  | case1 => cases h
  | case2 =>
    rename_i loc cs _ _ c rest hdrop hnone
    cases h
    obtain ⟨he, hblank, -⟩ := blank_of_drop_gap hdrop
    have hspace := (gap_cons_eq_nil_iff.mp (gap_eq_nil_of_drop_gap hdrop)).1
    exact ⟨gap false cs, rest, he, rfl, .here hblank hspace (longest?_eq_none_iff.mp hnone)⟩
  | case3 =>
    rename_i loc cs _ _ c rest hdrop t ht _ e' hrest ih
    cases h
    obtain ⟨he, hblank, -⟩ := blank_of_drop_gap hdrop
    have hcomment := (gap_cons_eq_nil_iff.mp (gap_eq_nil_of_drop_gap hdrop)).2
    obtain ⟨more, hmore⟩ := eq_lexeme_append_of_longest? ht
    have hlongest := longest_of_longest? ht
    rw [hmore] at hlongest he hcomment hrest ih
    rw [List.drop_left] at hrest ih
    obtain ⟨before, rest, rfl, hloc, hhalted⟩ := ih hrest
    rw [← List.append_assoc] at hlongest hcomment
    refine ⟨_, rest, ?_, ?_, .token hblank hlongest hcomment hhalted⟩
    · rw [List.append_assoc, List.append_assoc, ← he]
    · rw [hloc, Location.afterAll_append, Location.afterAll_append]
  | case4 => cases h

namespace Halted

theorem startless (h : Halted c rest before) : isSpace c = false ∧ Startless c rest.head? := by
  induction h with
  | here _ hspace hc => exact ⟨hspace, hc⟩
  | token _ _ _ _ ih => exact ih

theorem ne_slash (h : Halted c rest before) : c ≠ '/' := by
  rintro rfl
  exact h.startless.2.2.2.1 (by decide)

theorem congr (h : Halted c rest before) (hnext : c ∈ hesitant → rest'.head? = rest.head?) :
    Halted c rest' before := by
  have hc := h.startless.2
  have hslash := h.ne_slash
  induction h with
  | here hblank hspace _ => exact .here hblank hspace (hc.congr hnext)
  | token hblank hlongest hcomment _ ih =>
    rw [comment_prefix_iff hslash] at hcomment
    exact .token hblank (hlongest.congr (List.prefix_append _ _) hc hnext)
      ((comment_prefix_iff hslash).not.mpr hcomment) ih

/-- The scan fails at the character. -/
theorem scanFrom_eq (h : Halted c rest before) (loc : Location) :
    scanFrom loc (before ++ c :: rest) = .error ⟨c, loc.afterAll before⟩ := by
  have hslash := h.ne_slash
  induction h generalizing loc with
  | @here blank hblank hspace hc =>
    have hcomment : ¬['/', '/'] <+: [] ++ c :: rest := (comment_prefix_iff hslash).not.mpr (by simp)
    have hnil : gap false (c :: rest) = [] := gap_cons_eq_nil_iff.mpr ⟨hspace, hcomment⟩
    have hgap : gap false (blank ++ c :: rest) = blank := by
      rw [gap_append hblank, hnil, List.append_nil]
    have hdrop : (blank ++ c :: rest).drop (gap false (blank ++ c :: rest)).length = c :: rest := by
      rw [hgap, List.drop_left]
    rw [scanFrom_of_none hdrop (longest?_eq_none_iff.mpr hc), hgap]
  | @token blank before t hblank hlongest hcomment _ ih =>
    have hgap := hlongest.spells.gap_append hblank (List.append_assoc _ _ _ ▸ hcomment)
    have hdrop : (blank ++ (t.lexeme.toList ++ (before ++ c :: rest))).drop
        (gap false (blank ++ (t.lexeme.toList ++ (before ++ c :: rest)))).length =
          t.lexeme.toList ++ (before ++ c :: rest) := by
      rw [hgap, List.drop_left]
    rw [List.append_assoc] at hlongest
    rw [List.append_assoc, List.append_assoc, scanFrom_of_some hdrop (longest?_eq_some_iff.mpr hlongest), ih,
      hgap, Location.afterAll_append, Location.afterAll_append]
    rfl

/-- The text in front of the failure can be scanned. -/
theorem exists_scanFrom (h : Halted c rest before) (loc : Location) :
    ∃ ls, scanFrom loc before = .ok ls := by
  have hslash := h.ne_slash
  induction h generalizing loc with
  | @here blank hblank _ _ =>
    have hgap : gap false blank = blank := by simpa [gap] using gap_append hblank []
    exact ⟨_, scanFrom_of_end (by rw [hgap, List.drop_length])⟩
  | @token blank before t hblank hlongest hcomment _ ih =>
    have hgap := hlongest.spells.gap_append hblank ((comment_prefix_iff hslash).not.mp hcomment)
    have hdrop : (blank ++ (t.lexeme.toList ++ before)).drop
        (gap false (blank ++ (t.lexeme.toList ++ before))).length = t.lexeme.toList ++ before := by
      rw [hgap, List.drop_left]
    have hread := longest?_eq_some_iff.mpr (hlongest.of_append (List.prefix_append _ before))
    obtain ⟨ls, hls⟩ := ih ((loc.afterAll blank).afterAll t.lexeme.toList)
    exact ⟨_, by rw [scanFrom_of_some hdrop hread, hgap, hls]; rfl⟩

theorem not_endsInComment (h : Halted c rest before) : ¬EndsInComment before := by
  have hslash := h.ne_slash
  intro hopen
  induction h with
  | @here blank hblank _ _ =>
    rw [← List.append_nil blank] at hopen
    obtain ⟨_, _, he, -⟩ := hblank.not_endsInComment hopen
    simp at he
  | @token blank before t hblank hlongest hcomment _ ih =>
    have hopen := hblank.not_endsInComment hopen
    rw [comment_prefix_iff hslash] at hcomment
    by_cases hmem : '/' ∈ t.lexeme.toList
    · rw [hlongest.spells.eq_slash hmem] at hopen hcomment
      exact ih (hopen.of_cons.resolve_right hcomment)
    · exact ih (hopen.of_append hmem)

end Halted

end Token

namespace Source

open Text Token

theorem lexemes_eq_error_iff {source : String} {f : Failure} :
    lexemes source = .error f ↔ ∃ e, scan source = .error e ∧ f = .lexical e := by
  rw [lexemes]
  cases scan source <;> simp [Except.mapError, eq_comm]

/-- The failure is that of the character `c`, which stands at the byte `p` of the source, behind the text
`before` and in front of `rest`. -/
structure FailsAt (source : String) (f : Failure) (c : Char) (p : Nat) (before rest : List Char) : Prop where
  failure : f = .lexical ⟨c, .behind before⟩
  report : f.report =
    ⟨.scanning, .placed ("Unexpected character '" ++ c.toString ++ "'") (.behind before)⟩
  front : Text.Part source.toList 0 p before
  back : Text.Part source.toList p (String.utf8Len source.toList) (c :: rest)
  scans : ∃ ls, lexemes (String.ofList before) = .ok ls
  outside : ¬EndsInComment before
  not_space : c ∉ [' ', '\t', '\n', '\x0c', '\r']
  startless : Startless c rest.head?
  /-- What else stands behind the text and the character makes no difference, but for the next character. -/
  decided : ∀ rest', (c ∈ hesitant → rest'.head? = rest.head?) →
    lexemes (String.ofList (before ++ c :: rest')) = .error f

/-- A scan fails at a character that stands outside of comments and at which no token starts. The text in
front of it can be scanned, and decides the failure together with the character. -/
theorem lexemes_error {source : String} {f : Failure} (h : lexemes source = .error f) :
    ∃ c p before rest, FailsAt source f c p before rest := by
  obtain ⟨⟨c, loc⟩, hscan, rfl⟩ := lexemes_eq_error_iff.mp h
  obtain ⟨before, rest, he, hloc, hhalted⟩ := halted_of_scanFrom hscan
  dsimp only at he hloc hhalted
  rw [Location.afterAll_start] at hloc
  subst hloc
  refine ⟨c, String.utf8Len before, before, rest, ?_⟩
  constructor
  case failure => rfl
  case report => rfl
  case front => exact ⟨[], c :: rest, he, rfl, rfl⟩
  case back => exact ⟨before, [], by simpa using he, rfl, by rw [he]⟩
  case scans =>
    obtain ⟨ls, hls⟩ := hhalted.exists_scanFrom .start
    refine ⟨ls, ?_⟩
    rw [lexemes, scan, String.toList_ofList, hls]
    rfl
  case outside => exact hhalted.not_endsInComment
  case not_space =>
    rw [← isSpace_iff, hhalted.startless.1]
    exact Bool.false_ne_true
  case startless => exact hhalted.startless.2
  case decided =>
    intro rest' hnext
    have hfail := (hhalted.congr hnext).scanFrom_eq .start
    rw [lexemes, scan, String.toList_ofList, hfail, Location.afterAll_start]
    rfl

/-- The second point of a number, behind a comment with a character of two bytes. -/
theorem lexemes_error_point :
    lexemes "// ü\nx = 1.5.y" = .error (.lexical ⟨'.', ⟨2, 8⟩⟩) ∧
      ∃ p before rest, FailsAt "// ü\nx = 1.5.y" (.lexical ⟨'.', ⟨2, 8⟩⟩) '.' p before rest := by
  have h : lexemes "// ü\nx = 1.5.y" = .error (.lexical ⟨'.', ⟨2, 8⟩⟩) :=
    lexemes_eq_error_iff.mpr ⟨_, by decide +kernel, rfl⟩
  obtain ⟨c, p, before, rest, hfails⟩ := lexemes_error h
  obtain ⟨rfl, -⟩ : '.' = c ∧ _ := by simpa using hfails.failure
  exact ⟨h, p, before, rest, hfails⟩

end Source

end Labyrinth
