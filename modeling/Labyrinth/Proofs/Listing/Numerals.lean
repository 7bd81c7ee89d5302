import Labyrinth.Code.Instruction
import Labyrinth.Proofs.Double.Finite
import Labyrinth.Proofs.Listing.Words
import Labyrinth.Proofs.Parsing.Scanned

/-!
# Numerals in a listing

The text of a whole number is read back as the number, and so is the text of NaN. Whatever is read as a
number is a legible word.
-/

namespace Labyrinth

/-! ### Whole numbers -/

namespace Text

variable {c : Char} {cs : List Char}

theorem isGraphic_of_isAlphanum (h : c.isAlphanum) : isGraphic c := by
  have hrange : 48 ≤ c.toNat ∧ c.toNat ≤ 122 := by
    rcases (Bool.or_eq_true ..).mp h with halpha | hdigit
    · have hletter := isAlpha_iff_toNat.mp halpha
      omega
    · have hnumeral : 48 ≤ c.toNat ∧ c.toNat ≤ 57 := Char.isDigit_iff_toNat.mp hdigit
      omega
  have hslash : c ≠ '/' := by
    rintro rfl
    revert hrange
    decide
  simp only [isGraphic, isBlank, blankRanges, List.any_cons, List.any_nil, Bool.or_false]
  simp [hslash]
  omega

theorem isGraphic_of_isDigit (h : c.isDigit) : isGraphic c :=
  isGraphic_of_isAlphanum (by simp [Char.isAlphanum, h])

theorem IsDigits.legible (h : IsDigits cs) : Legible cs :=
  legible_of_graphic h.1 fun c hc => isGraphic_of_isDigit (h.2 c hc)

theorem unsigned?_eq_some {n : Nat} : unsigned? cs = some n ↔ IsDigits cs ∧ digitsValue cs = n := by
  constructor
  · intro h
    rw [unsigned?] at h
    split at h
    · next hdigits =>
      refine ⟨?_, Option.some.inj h⟩
      simpa [IsDigits] using hdigits
    · cases h
  · rintro ⟨hdigits, rfl⟩
    exact hdigits.unsigned?

theorem graphic_of_unsigned? {n : Nat} (h : unsigned? cs = some n) : ∀ c ∈ cs, isGraphic c :=
  fun c hc => isGraphic_of_isDigit ((unsigned?_eq_some.mp h).1.2 c hc)

theorem graphic_of_integer? {n : Int} (h : integer? cs = some n) : ∀ c ∈ cs, isGraphic c := by
  unfold integer? at h
  split at h
  · obtain ⟨k, hk, -⟩ := Option.map_eq_some_iff.mp h
    obtain ⟨n, hn, -⟩ := Option.bind_eq_some_iff.mp hk
    exact List.forall_mem_cons.mpr ⟨by decide, graphic_of_unsigned? hn⟩
  · obtain ⟨k, hk, -⟩ := Option.map_eq_some_iff.mp h
    unfold natural? at hk
    split at hk
    · exact List.forall_mem_cons.mpr ⟨by decide, graphic_of_unsigned? hk⟩
    · exact graphic_of_unsigned? hk

theorem isDigits_toString (n : Nat) : IsDigits (toString n).toList := by
  rw [Nat.toString_eq_ofList_toDigits, String.toList_ofList]
  exact ⟨Nat.toDigits_ne_nil, fun c hc => Nat.isDigit_of_mem_toDigits (by decide) (by decide) hc⟩

theorem digitsValue_toString (n : Nat) : digitsValue (toString n).toList = n := by
  rw [Nat.toString_eq_ofList_toDigits, String.toList_ofList]
  calc digitsValue (Nat.toDigits 10 n) = Nat.ofDigitChars 10 (Nat.toDigits 10 n) 0 := by
        rw [Nat.ofDigitChars_eq_foldl]
        rfl
    _ = n := Nat.ofDigitChars_ten_toDigits

theorem word64?_toString {n : Nat} (h : n < UInt64.size) : word64? (toString n).toList = some n := by
  rw [word64?, (isDigits_toString n).natural?, digitsValue_toString]
  simpa [Option.filter] using h

theorem integer?_toString (n : Int) : integer? (toString n).toList = some n := by
  cases n with
  | ofNat n =>
    have htext : toString (Int.ofNat n) = toString n := rfl
    rw [htext, (isDigits_toString n).integer?, digitsValue_toString]
    rfl
  | negSucc n =>
    have htext : toString (Int.negSucc n) = "-" ++ toString (n + 1) := rfl
    have hminus : "-".toList = ['-'] := rfl
    rw [htext, String.toList_append, hminus, List.singleton_append, integer?,
      (isDigits_toString (n + 1)).unsigned?, digitsValue_toString]
    rfl

theorem int64?_toString (value : Int64) : int64? (toString value.toInt).toList = some value := by
  have hlow : Int64.minValue.toInt ≤ value.toInt := value.minValue_le_toInt
  have hhigh : value.toInt ≤ Int64.maxValue.toInt := value.toInt_le
  rw [int64?, integer?_toString, Option.bind_some, if_pos ⟨hlow, hhigh⟩, Int64.ofInt_toInt]

theorem legible_toString (n : Int) : Legible (toString n).toList := by
  have hread := integer?_toString n
  refine legible_of_graphic ?_ (graphic_of_integer? hread)
  intro hnil
  rw [hnil] at hread
  cases hread

end Text

/-! ### Doubles -/

namespace Double

open Text

variable {c : Char} {cs : List Char} {x y : Float}

theorem graphic_of_power? {e : Int} (h : power? cs = some e) : ∀ c ∈ cs, isGraphic c := by
  cases cs with
  | nil => exact nofun
  | cons c cs =>
    rw [power?] at h
    split at h
    · next hc =>
      refine List.forall_mem_cons.mpr ⟨?_, graphic_of_integer? h⟩
      rcases hc with rfl | rfl <;> decide
    · cases h

theorem graphic_of_takeWhile (h : ∀ c ∈ cs.dropWhile Char.isDigit, isGraphic c) :
    ∀ c ∈ cs, isGraphic c := by
  rw [← List.takeWhile_append_dropWhile (p := Char.isDigit) (l := cs)]
  refine List.forall_mem_append.mpr ⟨fun c hc => ?_, h⟩
  exact isGraphic_of_isDigit (List.all_eq_true.mp List.all_takeWhile c hc)

theorem graphic_of_unsigned? (h : unsigned? cs = some x) : ∀ c ∈ cs, isGraphic c := by
  simp only [unsigned?] at h
  refine graphic_of_takeWhile ?_
  generalize cs.dropWhile Char.isDigit = rest at h ⊢
  split at h
  · split at h
    · cases h
    · obtain ⟨e, he, -⟩ := Option.map_eq_some_iff.mp h
      exact List.forall_mem_cons.mpr ⟨by decide, graphic_of_takeWhile (graphic_of_power? he)⟩
  · split at h
    · cases h
    · obtain ⟨e, he, -⟩ := Option.map_eq_some_iff.mp h
      exact graphic_of_power? he

theorem isGraphic_of_toLower (h : c.toLower.isAlpha) : isGraphic c := by
  refine isGraphic_of_isAlphanum ?_
  unfold Char.toLower at h
  split at h
  · next hupper =>
    have halpha : c.isAlpha := isAlpha_iff_toNat.mpr (.inl hupper)
    simp [Char.isAlphanum, halpha]
  · simp [Char.isAlphanum, h]

theorem graphic_of_word? (h : word? cs = some x) : ∀ c ∈ cs, isGraphic c := by
  have hletters : (cs.map Char.toLower).all Char.isAlpha := by
    rw [← String.toList_ofList (l := cs.map Char.toLower)]
    unfold word? at h
    split at h
    · next he => rw [he]; decide
    · next he => rw [he]; decide
    · next he => rw [he]; decide
    · cases h
  intro c hc
  exact isGraphic_of_toLower (List.all_eq_true.mp hletters _ (List.mem_map_of_mem hc))

theorem graphic_of_magnitude? (h : magnitude? cs = some x) : ∀ c ∈ cs, isGraphic c := by
  rw [magnitude?, Option.orElse_eq_or, Option.or_eq_some_iff] at h
  rcases h with h | ⟨-, h⟩
  · exact graphic_of_unsigned? h
  · exact graphic_of_word? h

/-- What is read as a double is legible. -/
theorem legible_of_ofChars? (h : ofChars? cs = some x) : Legible cs := by
  refine legible_of_graphic ?_ ?_
  · rintro rfl
    cases h
  · unfold ofChars? at h
    split at h
    · obtain ⟨y, hy, -⟩ := Option.map_eq_some_iff.mp h
      exact List.forall_mem_cons.mpr ⟨by decide, graphic_of_magnitude? hy⟩
    · exact List.forall_mem_cons.mpr ⟨by decide, graphic_of_magnitude? h⟩
    · exact graphic_of_magnitude? h

theorem toBits_of_isNaN (h : x.isNaN) :
    x.toModel.toBits.toBitVec = Float.Model.UnpackedFloat.packedNaN .binary64 := by
  obtain ⟨hexponent, hmantissa⟩ := fields_of_isNaN (v := x.toModel.toBits.toBitVec) h
  exact x.toModel.valid.eq_packedNaN hexponent hmantissa

/-- There is one NaN. -/
theorem eq_of_isNaN (hx : x.isNaN) (hy : y.isNaN) : x = y := by
  have hbits : x.toModel.toBits = y.toModel.toBits :=
    UInt64.toBitVec_inj.mp ((toBits_of_isNaN hx).trans (toBits_of_isNaN hy).symm)
  obtain ⟨⟨a, ha⟩⟩ := x
  obtain ⟨⟨b, hb⟩⟩ := y
  obtain rfl : a = b := hbits
  rfl

theorem ofChars?_render_of_isNaN (h : x.isNaN) :
    ofChars? (Layout.listing.render x).toList = some x := by
  have hnan : (0.0 / 0.0 : Float).isNaN := by decide +kernel
  rw [Layout.render, if_pos h, eq_of_isNaN h hnan]
  decide +kernel

end Double

end Labyrinth
