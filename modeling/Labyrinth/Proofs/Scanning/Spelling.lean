import Labyrinth.Proofs.Parsing.Scanned

/-!
# How tokens are spelled

`Token.Spells w t`: the characters `w` are a text of the token `t`. What the scan takes off the front of a
text spells its token, and nothing longer there spells any (`Token.longest_of_longest?`).
-/

namespace Labyrinth

/-! ### Numbers and words -/

namespace Text

variable {w cs : List Char} {c : Char}

/-- Digits, or digits with a point between them. -/
def IsNumber (w : List Char) : Prop :=
  IsDigits w ∨ ∃ whole fraction, IsDigits whole ∧ IsDigits fraction ∧ w = whole ++ '.' :: fraction

/-- Letters, digits and underscores, the first of them no digit. -/
def IsWord (w : List Char) : Prop :=
  ∃ c cs, w = c :: cs ∧ (c.isAlpha ∨ c = '_') ∧ ∀ d ∈ cs, d.isAlphanum ∨ d = '_'

theorem IsDigits.head_isDigit (h : IsDigits (c :: w)) : c.isDigit := h.2 c List.mem_cons_self

theorem IsNumber.ne_nil (h : IsNumber w) : w ≠ [] := by
  rcases h with h | ⟨whole, fraction, -, -, rfl⟩
  · exact h.1
  · exact List.append_ne_nil_of_right_ne_nil _ (List.cons_ne_nil _ _)

theorem IsNumber.head_isDigit (h : IsNumber (c :: w)) : c.isDigit := by
  rcases h with h | ⟨whole, fraction, h, -, he⟩
  · exact h.head_isDigit
  · obtain ⟨d, ds, rfl⟩ := List.exists_cons_of_ne_nil h.1
    obtain ⟨rfl, -⟩ := List.cons.inj he
    exact h.head_isDigit

/-- What is in a class stands in front of what is not. -/
theorem prefix_takeWhile {p : Char → Bool} (hw : w <+: cs) (hp : ∀ d ∈ w, p d) :
    w <+: cs.takeWhile p := by
  obtain ⟨rest, rfl⟩ := hw
  rw [List.takeWhile_append_of_pos hp]
  exact List.prefix_append w _

/-- A letter is no digit. -/
theorem isDigit_eq_false (h : c.isAlpha ∨ c = '_') : c.isDigit = false := by
  rcases h with h | rfl
  · have hletter := isAlpha_iff_toNat.mp h
    refine Bool.eq_false_iff.mpr fun hdigit => ?_
    have hrange : 48 ≤ c.toNat ∧ c.toNat ≤ 57 := Char.isDigit_iff_toNat.mp hdigit
    omega
  · decide

end Text

namespace Token

open Text

/-- The words that are no names. -/
def reservedWords : List String :=
  ["true", "false", "func", "if", "while", "return", "int", "float", "bool", "void"]

inductive Spells : List Char → Token → Prop
  | number {w : List Char} : IsNumber w → Spells w (.number (String.ofList w))
  | boolean (value : Bool) : Spells (if value then "true" else "false").toList (.boolean value)
  | keyword (word : Keyword) : Spells word.text.toList (.keyword word)
  | identifier {w : List Char} : IsWord w → String.ofList w ∉ reservedWords →
      Spells w (.identifier (String.ofList w))
  | operator (op : Operator) : Spells op.text.toList (.operator op)
  | punctuation (mark : Punctuation) : Spells mark.text.toList (.punctuation mark)

/-- The token is spelled at the front of the text, and nothing longer there spells a token. -/
structure Longest (t : Token) (cs : List Char) : Prop where
  spells : Spells t.lexeme.toList t
  front : t.lexeme.toList <+: cs
  length_le : ∀ w u, Spells w u → w <+: cs → w.length ≤ t.lexeme.toList.length

variable {w cs : List Char} {c : Char} {t u : Token}

/-! ### Classes of tokens -/

theorem mem_reserved_boolean (value : Bool) : .boolean value ∈ reserved := by
  cases value <;> decide

theorem mem_reserved_keyword (word : Keyword) : .keyword word ∈ reserved := by
  cases word with
  | type ty => cases ty <;> decide
  | _ => decide

theorem mem_marks_operator (op : Operator) : .operator op ∈ marks := by
  cases op <;> decide

theorem mem_marks_punctuation (mark : Punctuation) : .punctuation mark ∈ marks := by
  cases mark <;> decide

theorem map_lexeme_reserved : reserved.map lexeme = reservedWords := by decide

theorem isWord_of_mem_reserved : ∀ t ∈ reserved, IsWord t.lexeme.toList := by
  have hne : ∀ t ∈ reserved, t.lexeme.toList ≠ [] := by decide
  have halpha : ∀ t ∈ reserved, t.lexeme.toList.all Char.isAlpha := by decide
  intro t ht
  obtain ⟨c, cs, he⟩ := List.exists_cons_of_ne_nil (hne t ht)
  have hall := List.all_eq_true.mp (halpha t ht)
  rw [he] at hall ⊢
  obtain ⟨hc, hcs⟩ := List.forall_mem_cons.mp hall
  refine ⟨c, cs, rfl, .inl hc, fun d hd => .inl ?_⟩
  rw [Char.isAlphanum, hcs d hd, Bool.true_or]

theorem spells_of_mem_reserved (h : t ∈ reserved) : Spells t.lexeme.toList t := by
  simp only [reserved, Keyword.all, List.map_cons, List.map_nil, List.cons_append, List.nil_append,
    List.mem_cons, List.not_mem_nil, or_false] at h
  rcases h with rfl | rfl | rfl | rfl | rfl | rfl | rfl | rfl | rfl | rfl
  · exact .boolean true
  · exact .boolean false
  all_goals exact .keyword _

theorem spells_of_mem_marks (h : t ∈ marks) : Spells t.lexeme.toList t := by
  simp only [marks, List.mem_append, List.mem_map] at h
  rcases h with ⟨op, -, rfl⟩ | ⟨mark, -, rfl⟩
  · exact .operator op
  · exact .punctuation mark

theorem isWordStart_of_isWord (h : IsWord (c :: w)) : isWordStart c ∧ c.isDigit = false := by
  obtain ⟨d, ds, he, hd, -⟩ := h
  obtain ⟨rfl, -⟩ := List.cons.inj he
  exact ⟨by simpa [isWordStart] using hd, isDigit_eq_false hd⟩

/-- A mark starts neither like a number nor like a word. -/
theorem exists_head_of_mem_marks (h : t ∈ marks) :
    ∃ c w, t.lexeme.toList = c :: w ∧ c.isDigit = false ∧ isWordStart c = false := by
  have hall : ∀ t ∈ marks,
      t.lexeme.toList.head?.all fun c => !c.isDigit && !isWordStart c := by decide
  obtain ⟨c, w, he⟩ := List.exists_cons_of_ne_nil (lexeme_ne_nil_of_mem_marks t h)
  have hhead := hall t h
  rw [he] at hhead
  simp only [List.head?_cons, Option.all_some, Bool.and_eq_true, Bool.not_eq_true'] at hhead
  exact ⟨c, w, he, hhead⟩

/-- What a text is that spells a token, as its first character tells. -/
inductive OfClass (c : Char) (w : List Char) (t : Token) : Prop
  | number : c.isDigit → IsNumber w → OfClass c w t
  | word : isWordStart c → c.isDigit = false → IsWord w → OfClass c w t
  | mark : isWordStart c = false → c.isDigit = false → t ∈ marks → w = t.lexeme.toList →
      OfClass c w t

theorem Spells.exists_head (h : Spells w t) : ∃ c cs, w = c :: cs ∧ OfClass c w t := by
  have hword {w : List Char} (hw : IsWord w) : ∃ c cs, w = c :: cs ∧ OfClass c w t := by
    obtain ⟨c, cs, rfl, -⟩ := id hw
    obtain ⟨hstart, hdigit⟩ := isWordStart_of_isWord hw
    exact ⟨c, cs, rfl, .word hstart hdigit hw⟩
  have hmark (ht : t ∈ marks) : ∃ c cs, t.lexeme.toList = c :: cs ∧ OfClass c t.lexeme.toList t := by
    obtain ⟨c, cs, he, hdigit, hstart⟩ := exists_head_of_mem_marks ht
    exact ⟨c, cs, he, .mark hstart hdigit ht rfl⟩
  cases h with
  | number hw =>
    obtain ⟨c, cs, rfl⟩ := List.exists_cons_of_ne_nil hw.ne_nil
    exact ⟨c, cs, rfl, .number hw.head_isDigit hw⟩
  | identifier hw _ => exact hword hw
  | boolean value =>
    have hw := isWord_of_mem_reserved _ (mem_reserved_boolean value)
    cases value <;> exact hword hw
  | keyword word => exact hword (isWord_of_mem_reserved _ (mem_reserved_keyword word))
  | operator op => exact hmark (mem_marks_operator op)
  | punctuation mark => exact hmark (mem_marks_punctuation mark)

theorem Spells.ne_nil (h : Spells w t) : w ≠ [] := by
  obtain ⟨c, cs, rfl, -⟩ := h.exists_head
  exact List.cons_ne_nil c cs

theorem Spells.isWord {name : String} (h : Spells w (.identifier name)) : IsWord name.toList := by
  cases h with
  | identifier hw _ => rwa [String.toList_ofList]

theorem isWord_of_mem_reservedWords {s : String} (h : s ∈ reservedWords) : IsWord s.toList := by
  rw [← map_lexeme_reserved] at h
  obtain ⟨t, ht, rfl⟩ := List.mem_map.mp h
  exact isWord_of_mem_reserved t ht

/-- A token is a keyword or a truth value exactly if its text is a reserved word. -/
theorem Spells.reserved_iff (h : Spells w t) :
    ((∃ word, t = .keyword word) ∨ ∃ value, t = .boolean value) ↔ t.lexeme ∈ reservedWords := by
  have hmem {t : Token} (ht : t ∈ reserved) : t.lexeme ∈ reservedWords :=
    map_lexeme_reserved ▸ List.mem_map_of_mem ht
  cases h with
  | keyword word => exact iff_of_true (.inl ⟨word, rfl⟩) (hmem (mem_reserved_keyword word))
  | boolean value => exact iff_of_true (.inr ⟨value, rfl⟩) (hmem (mem_reserved_boolean value))
  | identifier _ hw => exact iff_of_false (by simp) hw
  | number hw =>
    refine iff_of_false (by simp) fun hword => ?_
    have hword := isWord_of_mem_reservedWords hword
    rw [lexeme, String.toList_ofList] at hword
    obtain ⟨c, cs, rfl⟩ := List.exists_cons_of_ne_nil hw.ne_nil
    have hdigit := hw.head_isDigit
    rw [(isWordStart_of_isWord hword).2] at hdigit
    cases hdigit
  | operator op => exact iff_of_false (by simp) (by cases op <;> decide)
  | punctuation mark => exact iff_of_false (by simp) (by cases mark <;> decide)

/-! ### The longest token -/

theorem isNumber_numeral (h : c.isDigit) : IsNumber (numeral (c :: cs)) := by
  have hwhole := isDigits_takeWhile cs h
  rw [numeral]
  split
  · next d rest _ =>
    split
    · next hd => exact .inr ⟨_, _, hwhole, isDigits_takeWhile rest hd, rfl⟩
    · exact .inl hwhole
  · exact .inl hwhole

theorem whole_prefix_numeral (cs : List Char) : cs.takeWhile Char.isDigit <+: numeral cs := by
  rw [numeral]
  split
  · split
    · exact List.prefix_append _ _
    · exact List.prefix_rfl
  · exact List.prefix_rfl

/-- No number is longer at the front of a text. -/
theorem prefix_numeral (hw : IsNumber w) (hfront : w <+: cs) : w <+: numeral cs := by
  rcases hw with hw | ⟨whole, fraction, hwhole, hfraction, rfl⟩
  · exact (prefix_takeWhile hfront hw.2).trans (whole_prefix_numeral cs)
  · obtain ⟨rest, rfl⟩ := hfront
    rw [List.append_assoc, List.cons_append, numeral, takeWhile_digits hwhole.2,
      dropWhile_digits hwhole.2]
    obtain ⟨d, ds, rfl⟩ := List.exists_cons_of_ne_nil hfraction.1
    have hd := hfraction.head_isDigit
    have hall := prefix_takeWhile (List.prefix_append (d :: ds) rest) hfraction.2
    simp only [List.cons_append, hd, if_true] at hall ⊢
    rw [List.prefix_append_right_inj, List.cons_prefix_cons]
    exact ⟨rfl, hall⟩

/-- No word is longer at the front of a text. -/
theorem prefix_takeWhile_isWordChar (hw : IsWord w) (hfront : w <+: cs) :
    w <+: cs.takeWhile isWordChar := by
  obtain ⟨c, ds, rfl, hc, hds⟩ := hw
  refine prefix_takeWhile hfront (List.forall_mem_cons.mpr ⟨?_, fun d hd => ?_⟩)
  · rcases hc with hc | rfl
    · simp [isWordChar, Char.isAlphanum, hc]
    · rfl
  · simpa [isWordChar] using hds d hd

theorem marks_pairwise : marks.Pairwise fun t u => u.lexeme.toList.length ≤ t.lexeme.toList.length := by
  decide

/-- Of the marks at the front of a text the first in the table is the longest. -/
theorem length_le_of_mark? (h : mark? cs = some t) (hu : u ∈ marks) (hfront : u.lexeme.toList <+: cs) :
    u.lexeme.toList.length ≤ t.lexeme.toList.length := by
  obtain ⟨-, as, bs, he, has⟩ := List.find?_eq_some_iff_append.mp h
  have hpair := marks_pairwise
  rw [he] at hu hpair
  rcases List.mem_append.mp hu with hu | hu
  · have hno := has u hu
    rw [List.isPrefixOf_iff_prefix.mpr hfront] at hno
    cases hno
  · rcases List.mem_cons.mp hu with rfl | hu
    · exact Nat.le_refl _
    · exact (List.pairwise_cons.mp (List.pairwise_append.mp hpair).2.1).1 u hu

theorem spells_ofWord (hw : IsWord w) : Spells w (ofWord (String.ofList w)) := by
  cases hfind : reserved.find? (·.lexeme = String.ofList w) with
  | some t =>
    have hlexeme : t.lexeme = String.ofList w := by simpa using List.find?_some hfind
    have hspells := spells_of_mem_reserved (List.mem_of_find?_eq_some hfind)
    rw [hlexeme, String.toList_ofList] at hspells
    rwa [ofWord, hfind]
  | none =>
    rw [ofWord, hfind]
    refine .identifier hw fun hmem => ?_
    rw [← map_lexeme_reserved] at hmem
    obtain ⟨t, ht, he⟩ := List.mem_map.mp hmem
    simpa [he] using List.find?_eq_none.mp hfind t ht

theorem isWord_takeWhile (h : isWordStart c) : IsWord ((c :: cs).takeWhile isWordChar) := by
  have hc : isWordChar c := by
    simp only [isWordStart, isWordChar, Char.isAlphanum, Bool.or_eq_true] at h ⊢
    exact h.imp .inl id
  rw [List.takeWhile_cons_of_pos hc]
  refine ⟨c, _, rfl, by simpa [isWordStart] using h, fun d hd => ?_⟩
  simpa [isWordChar] using List.all_eq_true.mp List.all_takeWhile d hd

/-- What is read is the longest token at the front of the text. -/
theorem longest_of_longest? (h : longest? cs = some t) : t.Longest cs := by
  obtain ⟨rest, hrest⟩ := eq_lexeme_append_of_longest? h
  have hfront : t.lexeme.toList <+: cs := ⟨rest, hrest.symm⟩
  cases cs with
  | nil => cases h
  | cons c cs =>
    -- what else is spelled there starts with `c` too, so it is of the same class
    have hclass {w : List Char} {u : Token} (hw : Spells w u) (hwfront : w <+: c :: cs) :
        OfClass c w u := by
      obtain ⟨d, ds, rfl, hclass⟩ := hw.exists_head
      obtain ⟨rfl, -⟩ := List.cons_prefix_cons.mp hwfront
      exact hclass
    rw [longest?] at h
    split at h
    · next hdigit =>
      cases h
      have hnumber : IsNumber (numeral (c :: cs)) := isNumber_numeral hdigit
      have hspells := Spells.number hnumber
      refine ⟨by simpa [lexeme] using hspells, hfront, fun w u hw hwfront => ?_⟩
      cases hclass hw hwfront with
      | number _ hw => simpa [lexeme] using (prefix_numeral hw hwfront).length_le
      | word _ hno _ | mark _ hno _ _ => rw [hno] at hdigit; cases hdigit
    · next hdigit =>
      split at h
      · next hstart =>
        cases h
        have hword : IsWord ((c :: cs).takeWhile isWordChar) := isWord_takeWhile hstart
        have hspells := spells_ofWord hword
        refine ⟨by simpa using hspells, hfront, fun w u hw hwfront => ?_⟩
        cases hclass hw hwfront with
        | number hyes _ => exact absurd hyes hdigit
        | word _ _ hw => simpa using (prefix_takeWhile_isWordChar hw hwfront).length_le
        | mark hno _ _ _ => rw [hno] at hstart; cases hstart
      · next hstart =>
        have hmem := List.mem_of_find?_eq_some h
        refine ⟨spells_of_mem_marks hmem, hfront, fun w u hw hwfront => ?_⟩
        cases hclass hw hwfront with
        | number hyes _ => exact absurd hyes hdigit
        | word hyes _ _ => exact absurd hyes hstart
        | mark _ _ hu hw => rw [hw] at hwfront ⊢; exact length_le_of_mark? h hu hwfront

end Token

end Labyrinth
