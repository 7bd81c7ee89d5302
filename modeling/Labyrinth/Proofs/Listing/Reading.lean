import Labyrinth.Proofs.Except
import Labyrinth.Proofs.Listing.Numerals

/-!
# Reading a listing back

An instruction is `Instruction.Legible` if its names are legible words and its counts fit into 64 bits.
The listing of such instructions is read as these instructions (`Code.ofListing_of_legible`), and what is
read from any text is legible (`Code.legible_of_ofListing`). The texts of doubles are the one assumption
(`Code.FloatsRead`).
-/

namespace Labyrinth

namespace Instruction

/-- The names among the operands. -/
def names : Instruction → List String
  | load name | store name | label name | jump name | jumpIfFalse name | func name _ | call name _ =>
    [name]
  | pushInt _ | pushFloat _ | binary _ | neg | not | toFloat | fin | ret | retVoid | nop => []

/-- The counts among the operands. -/
def counts : Instruction → List Nat
  | func _ count | call _ count => [count]
  | _ => []

structure Legible (i : Instruction) : Prop where
  names : ∀ name ∈ i.names, Text.Legible name.toList
  counts : ∀ n ∈ i.counts, n < UInt64.size

instance (i : Instruction) : Decidable i.Legible :=
  decidable_of_iff ((∀ name ∈ i.names, Text.Legible name.toList) ∧ ∀ n ∈ i.counts, n < UInt64.size)
    ⟨fun h => ⟨h.1, h.2⟩, fun h => ⟨h.names, h.counts⟩⟩

/-- The text of the double that the instruction pushes, if it is a number, is read as the double. -/
def FloatReads : Instruction → Prop
  | pushFloat x => ¬ x.isNaN → Double.ofChars? (Layout.listing.render x).toList = some x
  | _ => True

instance : DecidablePred FloatReads
  | pushFloat x =>
    inferInstanceAs (Decidable (¬ x.isNaN → Double.ofChars? (Layout.listing.render x).toList = some x))
  | pushInt _ | load _ | store _ | binary _ | neg | not | toFloat | label _ | jump _ | jumpIfFalse _
  | func _ _ | fin | call _ _ | ret | retVoid | nop => inferInstanceAs (Decidable True)

end Instruction

namespace Code

/-- The names are legible words, and the counts fit into 64 bits. -/
def Legible (code : Code) : Prop := ∀ i ∈ code, i.Legible

/-- The texts of the numbers that the code pushes are read as these numbers. -/
def FloatsRead (code : Code) : Prop := ∀ i ∈ code, i.FloatReads

instance (code : Code) : Decidable code.Legible :=
  inferInstanceAs (Decidable (∀ i ∈ code, i.Legible))

instance (code : Code) : Decidable code.FloatsRead :=
  inferInstanceAs (Decidable (∀ i ∈ code, i.FloatReads))

end Code

/-! ### An instruction -/

namespace Instruction

variable {i : Instruction} {mnemonic : String} {ws : List String}

theorem legible_mnemonic (i : Instruction) : Text.Legible i.mnemonic.toList := by
  have hgraphic {w : String} (hne : w.toList ≠ []) (h : w.toList.all Text.isGraphic) :
      Text.Legible w.toList := Text.legible_of_graphic hne (List.all_eq_true.mp h)
  unfold mnemonic
  split
  case h_5 op => cases op <;> exact hgraphic (by decide) (by decide)
  all_goals exact hgraphic (by decide) (by decide)

/-- A double that is pushed is read back, NaN included. -/
theorem FloatReads.ofChars? {x : Float} (h : (pushFloat x).FloatReads) :
    Double.ofChars? (Layout.listing.render x).toList = some x := by
  by_cases hnan : x.isNaN
  · exact Double.ofChars?_render_of_isNaN hnan
  · exact h hnan

theorem Legible.operands (h : i.Legible) (hfloat : i.FloatReads) :
    ∀ w ∈ i.operands, Text.Legible w.toList := by
  cases i with
  | pushInt value => exact List.forall_mem_singleton.mpr (Text.legible_toString _)
  | pushFloat x => exact List.forall_mem_singleton.mpr (Double.legible_of_ofChars? hfloat.ofChars?)
  | load name | store name | label name | jump name | jumpIfFalse name => exact h.names
  | func name n | call name n =>
    refine List.forall_mem_cons.mpr ⟨h.names name List.mem_cons_self, ?_⟩
    exact List.forall_mem_singleton.mpr (Text.isDigits_toString n).legible
  | _ => exact nofun

theorem ofWords_pushInt (value : Int64) (word : String) : ofWords (pushInt value).mnemonic [word] =
    match Text.int64? word.toList with
    | some value => .ok (.pushInt value)
    | none => .error (.notInteger word) := rfl

theorem ofWords_pushFloat (x : Float) (word : String) : ofWords (pushFloat x).mnemonic [word] =
    match Double.ofChars? word.toList with
    | some value => .ok (.pushFloat value)
    | none => .error (.notNumber word) := rfl

theorem ofWords_func (name : String) (n : Nat) (count : String) :
    ofWords (func name n).mnemonic [name, count] =
      match Text.word64? count.toList with
      | some n => .ok (.func name n)
      | none => .error (.notCount (func name n).mnemonic) := rfl

theorem ofWords_call (name : String) (n : Nat) (count : String) :
    ofWords (call name n).mnemonic [name, count] =
      match Text.word64? count.toList with
      | some n => .ok (.call name n)
      | none => .error (.notCount (call name n).mnemonic) := rfl

/-- The words of an instruction are read as the instruction. -/
theorem ofWords_operands (h : i.Legible) (hfloat : i.FloatReads) :
    ofWords i.mnemonic i.operands = .ok i := by
  have hcount {n : Nat} (hn : n ∈ i.counts) : Text.word64? (toString n).toList = some n :=
    Text.word64?_toString (h.counts n hn)
  cases i with
  | pushInt value =>
    refine (ofWords_pushInt value _).trans ?_
    rw [Text.int64?_toString]
  | pushFloat x =>
    refine (ofWords_pushFloat x _).trans ?_
    rw [hfloat.ofChars?]
  | func name n =>
    refine (ofWords_func name n _).trans ?_
    rw [hcount List.mem_cons_self]
  | call name n =>
    refine (ofWords_call name n _).trans ?_
    rw [hcount List.mem_cons_self]
  | binary op => cases op <;> rfl
  | _ => rfl

theorem toList_text (i : Instruction) :
    i.text.toList = [' '].intercalate ((i.mnemonic :: i.operands).map String.toList) := by
  have hblank : " ".toList = [' '] := rfl
  rw [text, String.toList_intercalate, hblank]

theorem legible_words (h : i.Legible) (hfloat : i.FloatReads) :
    ∀ w ∈ (i.mnemonic :: i.operands).map String.toList, Text.Legible w :=
  List.forall_mem_map.mpr
    (List.forall_mem_cons.mpr ⟨i.legible_mnemonic, h.operands hfloat⟩)

/-! ### What is read is legible -/

theorem legible_of_mem_plain (h : i ∈ plain) : i.Legible := by
  simp only [plain, BinaryOp.all, List.map_cons, List.map_nil, List.cons_append, List.nil_append,
    List.mem_cons, List.not_mem_nil, or_false] at h
  rcases h with rfl | rfl | rfl | rfl | rfl | rfl | rfl | rfl | rfl | rfl | rfl | rfl | rfl | rfl | rfl |
    rfl | rfl | rfl | rfl | rfl <;> exact ⟨nofun, nofun⟩

theorem legible_of_named? {make : String → Instruction} (h : named? mnemonic = some make) {name : String}
    (hname : Text.Legible name.toList) : (make name).Legible := by
  unfold named? at h
  split at h
  case h_6 => cases h
  all_goals
    cases h
    exact ⟨List.forall_mem_singleton.mpr hname, nofun⟩

theorem legible_of_counted? {make : String → Nat → Instruction} (h : counted? mnemonic = some make)
    {name : String} {n : Nat} (hname : Text.Legible name.toList) (hn : n < UInt64.size) :
    (make name n).Legible := by
  unfold counted? at h
  split at h
  case h_3 => cases h
  all_goals
    cases h
    exact ⟨List.forall_mem_singleton.mpr hname, List.forall_mem_singleton.mpr hn⟩

theorem single_eq_ok {word : String} (h : single mnemonic ws = .ok word) : ws = [word] := by
  unfold single at h
  split at h
  · cases h
    rfl
  · cases h

theorem lt_of_word64? {cs : List Char} {n : Nat} (h : Text.word64? cs = some n) : n < UInt64.size := by
  simpa using (Option.filter_eq_some_iff.mp h).2

/-- An instruction that is read from legible words is legible. -/
theorem legible_of_ofWords (h : ofWords mnemonic ws = .ok i)
    (hwords : ∀ w ∈ ws, Text.Legible w.toList) : i.Legible := by
  unfold ofWords at h
  split at h
  · next j hj =>
    split at h
    · cases h
      exact legible_of_mem_plain (List.mem_of_find?_eq_some hj)
    · cases h
  split at h
  · next make _ hmake =>
    obtain ⟨name, hname, rfl⟩ := Except.map_eq_ok.mp h
    rw [single_eq_ok hname] at hwords
    exact legible_of_named? hmake (hwords name List.mem_cons_self)
  · next make _ hmake =>
    split at h
    · next name count =>
      split at h
      · next n hn =>
        cases h
        exact legible_of_counted? hmake (hwords name List.mem_cons_self) (lt_of_word64? hn)
      · cases h
    · cases h
  · split at h
    · obtain ⟨word, -, h⟩ := Except.bind_eq_ok.mp h
      split at h
      · cases h
        exact ⟨nofun, nofun⟩
      · cases h
    · split at h
      · obtain ⟨word, -, h⟩ := Except.bind_eq_ok.mp h
        split at h
        · cases h
          exact ⟨nofun, nofun⟩
        · cases h
      · cases h

end Instruction

/-! ### A listing -/

namespace Code

variable {code : Code} {i : Instruction} {line : List Char} {text : String}

theorem ofLine_text (h : i.Legible) (hfloat : i.FloatReads) : ofLine i.text.toList = .ok (some i) := by
  have hwords : (Text.words (beforeComment i.text.toList)).map String.ofList =
      i.mnemonic :: i.operands := by
    rw [Instruction.toList_text, words_line (Instruction.legible_words h hfloat), List.map_map]
    simp
  rw [ofLine, hwords]
  show (Instruction.ofWords i.mnemonic i.operands).map some = _
  rw [Instruction.ofWords_operands h hfloat]
  rfl

theorem pieces_listing (h : code.Legible) (hfloats : code.FloatsRead) :
    Text.pieces (· = '\n') code.listing.toList = code.map (·.text.toList) ++ [[]] := by
  induction code with
  | nil => rfl
  | cons i code ih =>
    obtain ⟨hi, h⟩ := List.forall_mem_cons.mp h
    obtain ⟨hfloat, hfloats⟩ := List.forall_mem_cons.mp hfloats
    have hline (c : Char) (hc : c ∈ i.text.toList) : decide (c = '\n') = false := by
      rw [Instruction.toList_text] at hc
      exact decide_eq_false (ne_newline_of_mem_intercalate (Instruction.legible_words hi hfloat) hc)
    have hend : "\n".toList = ['\n'] := rfl
    rw [listing, List.map_cons, String.join_cons, String.toList_append, String.toList_append, hend,
      List.append_assoc, List.singleton_append, Text.pieces_append (decide_eq_true rfl) hline]
    exact congrArg (_ :: ·) (ih h hfloats)

theorem ofLines_texts (h : code.Legible) (hfloats : code.FloatsRead) (n : Nat) :
    ofLines n (code.map (·.text.toList) ++ [[]]) = .ok code := by
  induction code generalizing n with
  | nil => rfl
  | cons i code ih =>
    obtain ⟨hi, h⟩ := List.forall_mem_cons.mp h
    obtain ⟨hfloat, hfloats⟩ := List.forall_mem_cons.mp hfloats
    rw [List.map_cons, List.cons_append, ofLines, ofLine_text hi hfloat, ih h hfloats]
    rfl

/-- The listing of a legible code is read as the code. -/
theorem ofListing_of_legible (h : code.Legible) (hfloats : code.FloatsRead) :
    ofListing code.listing = .ok code := by
  rw [ofListing, pieces_listing h hfloats, ofLines_texts h hfloats]

theorem legible_of_ofLine {i? : Option Instruction} (h : ofLine line = .ok i?) : ∀ i ∈ i?, i.Legible := by
  have hwords : ∀ w ∈ (Text.words (beforeComment line)).map String.ofList, Text.Legible w.toList := by
    intro w hw
    obtain ⟨v, hv, rfl⟩ := List.mem_map.mp hw
    rw [String.toList_ofList]
    exact legible_of_mem_words hv
  unfold ofLine at h
  split at h
  · cases h
    exact nofun
  · next mnemonic operands he =>
    obtain ⟨i, hi, rfl⟩ := Except.map_eq_ok.mp h
    rw [he] at hwords
    intro j hj
    obtain rfl : i = j := Option.some.inj hj
    exact Instruction.legible_of_ofWords hi (List.forall_mem_cons.mp hwords).2

theorem legible_of_ofLines {ls : List (List Char)} {n : Nat} (h : ofLines n ls = .ok code) :
    code.Legible := by
  induction ls generalizing n code with
  | nil =>
    cases h
    exact nofun
  | cons l ls ih =>
    obtain ⟨i?, hline, h⟩ := Except.bind_eq_ok.mp h
    obtain ⟨rest, hrest, h⟩ := Except.bind_eq_ok.mp h
    cases h
    refine List.forall_mem_append.mpr ⟨fun i hi => ?_, ih hrest⟩
    exact legible_of_ofLine (Except.mapError_eq_ok.mp hline) i (Option.mem_toList.mp hi)

/-- What a listing is read as is legible, however the text is spaced and commented. -/
theorem legible_of_ofListing (h : ofListing text = .ok code) : code.Legible :=
  legible_of_ofLines h

end Code

end Labyrinth
