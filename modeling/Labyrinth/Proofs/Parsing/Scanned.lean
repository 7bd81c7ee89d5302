import Labyrinth.Token.Scan
import Labyrinth.Double.Numeral
import Mathlib.Algebra.Group.Int.Defs
import Mathlib.Algebra.Group.Nat.Defs
import Mathlib.Data.List.TakeWhile

/-!
# The tokens of a scan

The end of input is the last of them and nowhere else, and a number is a run of digits, or one with a
fraction that stands for a double (`Token.scanned_of_scan`).
-/

namespace Labyrinth

namespace Text

/-! ### Letters -/

theorem isAlpha_iff_toNat {c : Char} :
    c.isAlpha ↔ 65 ≤ c.toNat ∧ c.toNat ≤ 90 ∨ 97 ≤ c.toNat ∧ c.toNat ≤ 122 := by
  unfold Char.isAlpha Char.isUpper Char.isLower
  simp only [Bool.or_eq_true, Bool.and_eq_true, decide_eq_true_eq]
  rfl

/-! ### Numbers -/

/-- A run of digits, at least one. -/
def IsDigits (cs : List Char) : Prop := cs ≠ [] ∧ ∀ c ∈ cs, c.isDigit

variable {cs : List Char}

theorem IsDigits.unsigned? (h : IsDigits cs) : unsigned? cs = some (digitsValue cs) := by
  obtain ⟨hne, hd⟩ := h
  rw [Text.unsigned?, if_pos]
  simpa [hne] using hd

theorem IsDigits.ne_cons (h : IsDigits cs) {c : Char} (hc : c.isDigit = false) (cs' : List Char) :
    cs ≠ c :: cs' := by
  rintro rfl
  have := h.2 c (List.mem_cons_self ..)
  simp [hc] at this

theorem IsDigits.natural? (h : IsDigits cs) : natural? cs = some (digitsValue cs) := by
  unfold Text.natural?
  split
  · next cs' => exact absurd rfl (h.ne_cons (by decide) cs')
  exact h.unsigned?

theorem IsDigits.integer? (h : IsDigits cs) : integer? cs = some (digitsValue cs : Int) := by
  unfold Text.integer?
  split
  · next cs' => exact absurd rfl (h.ne_cons (by decide) cs')
  rw [h.natural?]
  rfl

/-- Of the runs of digits exactly those below `2 ^ 63` are integers of 64 bits. -/
theorem IsDigits.int64? (h : IsDigits cs) :
    int64? cs = if digitsValue cs < 2 ^ 63 then some (.ofNat (digitsValue cs)) else none := by
  have hmax : Int64.maxValue.toInt = 2 ^ 63 - 1 := by decide
  have hmin : Int64.minValue.toInt = - 2 ^ 63 := by decide
  rw [Text.int64?, h.integer?, Option.bind_some, hmax, hmin]
  split
  · next hn =>
    rw [if_pos (by omega)]
    rfl
  · next hn => rw [if_neg (by omega)]

end Text

theorem takeWhile_digits {ds cs : List Char} (h : ∀ c ∈ ds, c.isDigit) :
    (ds ++ '.' :: cs).takeWhile Char.isDigit = ds := by
  rw [List.takeWhile_append_of_pos h, List.takeWhile_cons_of_neg (by decide), List.append_nil]

theorem dropWhile_digits {ds cs : List Char} (h : ∀ c ∈ ds, c.isDigit) :
    (ds ++ '.' :: cs).dropWhile Char.isDigit = '.' :: cs := by
  rw [List.dropWhile_append_of_pos h, List.dropWhile_cons_of_neg (by decide)]

/-- A run of digits with a fraction stands for a double. -/
theorem Double.exists_ofChars? {whole fraction : List Char} (hw : Text.IsDigits whole)
    (hf : Text.IsDigits fraction) : ∃ value, ofChars? (whole ++ '.' :: fraction) = some value := by
  have hall : fraction.takeWhile Char.isDigit = fraction :=
    List.takeWhile_eq_self_iff.mpr hf.2
  have hrest : fraction.dropWhile Char.isDigit = [] :=
    List.dropWhile_eq_nil_iff.mpr hf.2
  have hunsigned : ∃ value, unsigned? (whole ++ '.' :: fraction) = some value := by
    rw [unsigned?, takeWhile_digits hw.2, dropWhile_digits hw.2]
    simp [hall, hrest, hw.1, power?]
  obtain ⟨value, hvalue⟩ := hunsigned
  refine ⟨value, ?_⟩
  have hmagnitude : magnitude? (whole ++ '.' :: fraction) = some value := by
    rw [magnitude?, hvalue]
    rfl
  obtain ⟨c, cs, rfl⟩ := List.exists_cons_of_ne_nil hw.1
  have hc : c.isDigit := hw.2 c (List.mem_cons_self ..)
  unfold ofChars?
  split
  · next he => cases he; cases hc
  · next he => cases he; cases hc
  · exact hmagnitude

/-! ### Tokens -/

namespace Token

/-- A token that stands in front of the end of input, and if it is a number one that is written with
digits or as a double. -/
def Regular : Token → Prop
  | .endOfInput => False
  | .number raw => Text.IsDigits raw.toList ∨
      '.' ∈ raw.toList ∧ ∃ value, Double.ofChars? raw.toList = some value
  | _ => True

end Token

/-- Regular tokens and the end of input behind them. -/
inductive Scanned : List Lexeme → Prop
  | last {i} : Scanned [⟨.endOfInput, i⟩]
  | cons {l ls} : l.token.Regular → Scanned ls → Scanned (l :: ls)

namespace Token

theorem isDigits_takeWhile {c : Char} (cs : List Char) (h : c.isDigit) :
    Text.IsDigits ((c :: cs).takeWhile Char.isDigit) := by
  constructor
  · simp [h]
  · exact List.all_eq_true.mp List.all_takeWhile

theorem regular_numeral {c : Char} (cs : List Char) (h : c.isDigit) :
    (number (String.ofList (numeral (c :: cs)))).Regular := by
  have hwhole := isDigits_takeWhile cs h
  rw [Regular, String.toList_ofList, numeral]
  split
  · next d rest _ =>
    split
    · next hd => exact .inr ⟨by simp, Double.exists_ofChars? hwhole (isDigits_takeWhile rest hd)⟩
    · exact .inl hwhole
  · exact .inl hwhole

theorem regular_of_mem_reserved : ∀ {t : Token}, t ∈ reserved → t.Regular := by
  simp [reserved, Keyword.all, Regular]

theorem regular_of_mem_marks : ∀ {t : Token}, t ∈ marks → t.Regular := by
  simp [marks, Regular]

theorem regular_ofWord (w : String) : (ofWord w).Regular := by
  unfold ofWord
  cases h : reserved.find? (·.lexeme = w) with
  | none => trivial
  | some t => exact regular_of_mem_reserved (List.mem_of_find?_eq_some h)

theorem regular_of_longest? {cs : List Char} {t : Token} (h : longest? cs = some t) : t.Regular := by
  cases cs with
  | nil => cases h
  | cons c cs =>
    rw [longest?] at h
    split at h
    · next hc =>
      cases h
      exact regular_numeral cs hc
    · split at h
      · cases h
        exact regular_ofWord _
      · exact regular_of_mem_marks (List.mem_of_find?_eq_some h)

theorem scanned_of_scanFrom {loc : Location} {cs : List Char} :
    ∀ {ls : List Lexeme}, scanFrom loc cs = .ok ls → Scanned ls := by
  fun_induction scanFrom loc cs with
  | case1 =>
    intro ls h
    cases h
    exact .last
  | case2 => nofun
  | case3 => nofun
  | case4 =>
    rename_i ht _ _ hrest ih
    intro ls h
    cases h
    exact .cons (regular_of_longest? ht) (ih hrest)

theorem scanned_of_scan {source : String} {ls : List Lexeme} (h : scan source = .ok ls) :
    Scanned ls :=
  scanned_of_scanFrom h

end Token

end Labyrinth
