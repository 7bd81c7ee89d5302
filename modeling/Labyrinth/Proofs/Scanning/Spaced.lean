import Labyrinth.Proofs.Scanning.Placement

/-!
# Texts with white space between them

No token goes over white space. So what is read in front of a white space does not depend on what stands
behind it (`Token.longest?_append_space`), a text that can be scanned leaves the scan behind a newline as it
was (`Token.scanFrom_append_newline`), and the texts of the tokens with single spaces between them are
scanned to these tokens again (`Token.scan_joined`).
-/

namespace Labyrinth

namespace Token

open Text

variable {w cs ds : List Char} {c : Char} {t : Token} {loc : Location} {ls : List Lexeme}

/-! ### What spells a token is read as that token -/

/-- A number is read up to its end. -/
theorem numeral_eq_self (h : IsNumber w) : numeral w = w := by
  have hle := (prefix_numeral h List.prefix_rfl).length_le
  obtain ⟨rest, hrest⟩ := numeral_isPrefix w
  exact (List.IsPrefix.eq_of_length_le ⟨rest, hrest.symm⟩ hle)

/-- A word is read up to its end. -/
theorem takeWhile_isWordChar_eq_self (h : IsWord w) : w.takeWhile isWordChar = w := by
  have hle := (prefix_takeWhile_isWordChar h List.prefix_rfl).length_le
  exact (List.takeWhile_prefix _).eq_of_length_le hle

theorem ofWord_of_notMem {s : String} (h : s ∉ reservedWords) : ofWord s = .identifier s := by
  have hnone : reserved.find? (·.lexeme = s) = none := by
    rw [List.find?_eq_none]
    intro t ht
    have hmem : t.lexeme ∈ reservedWords := map_lexeme_reserved ▸ List.mem_map_of_mem ht
    simpa using ne_of_mem_of_not_mem hmem h
  rw [ofWord, hnone, Option.getD_none]

theorem longest?_of_isWord (h : IsWord w) : longest? w = some (ofWord (String.ofList w)) := by
  obtain ⟨c, cs, rfl, -⟩ := id h
  obtain ⟨hstart, hdigit⟩ := isWordStart_of_isWord h
  rw [longest?, hdigit, hstart, takeWhile_isWordChar_eq_self h]
  rfl

theorem Spells.longest? (h : Spells w t) : longest? w = some t := by
  cases h with
  | number hw =>
    obtain ⟨c, cs, rfl⟩ := List.exists_cons_of_ne_nil hw.ne_nil
    rw [Token.longest?, if_pos hw.head_isDigit, numeral_eq_self hw]
  | identifier hw hno => rw [longest?_of_isWord hw, ofWord_of_notMem hno]
  | boolean value => cases value <;> decide
  | keyword word => cases word with
    | type ty => cases ty <;> decide
    | _ => decide
  | operator op => cases op <;> decide
  | punctuation mark => cases mark <;> decide

/-- Where a token is spelled, some token is read. -/
theorem exists_longest? (h : Spells w t) (hfront : w <+: cs) : ∃ u, longest? cs = some u := by
  obtain ⟨c, ds, rfl, hclass⟩ := h.exists_head
  obtain ⟨rest, rfl⟩ := hfront
  rw [List.cons_append, longest?]
  cases hclass with
  | number hdigit _ => exact ⟨_, if_pos hdigit⟩
  | word hstart hdigit _ => exact ⟨_, by rw [hdigit, hstart]; rfl⟩
  | mark hstart hdigit ht he =>
    rw [hdigit, hstart]
    have hsome : (mark? (c :: (ds ++ rest))).isSome := by
      rw [mark?, List.find?_isSome]
      exact ⟨t, ht, List.isPrefixOf_iff_prefix.mpr (he ▸ List.prefix_append (c :: ds) rest)⟩
    exact Option.isSome_iff_exists.mp hsome

/-- What is read is what the longest text of a token spells. -/
theorem longest?_eq_some_iff : longest? cs = some t ↔ t.Longest cs := by
  refine ⟨longest_of_longest?, fun h => ?_⟩
  obtain ⟨u, hu⟩ := exists_longest? h.spells h.front
  have hlongest := longest_of_longest? hu
  have hle := h.length_le _ _ hlongest.spells hlongest.front
  have hge := hlongest.length_le _ _ h.spells h.front
  have hlexeme : t.lexeme.toList = u.lexeme.toList :=
    (List.prefix_of_prefix_length_le h.front hlongest.front hge).eq_of_length_le hle
  have ht := h.spells.longest?
  rw [hlexeme, hlongest.spells.longest?] at ht
  rw [hu, ht]

/-! ### No token goes over white space -/

theorem isSpace_eq_false_of_isWordChar (h : isWordChar c) : isSpace c = false := by
  by_contra hspace
  have hmem := isSpace_iff.mp (by simpa using hspace)
  simp only [List.mem_cons, List.not_mem_nil, or_false] at hmem
  rcases hmem with rfl | rfl | rfl | rfl | rfl <;> exact absurd h (by decide)

/-- There is no white space in a token. -/
theorem Spells.isSpace_eq_false (h : Spells w t) : ∀ c ∈ w, isSpace c = false := by
  have hdigits {w : List Char} (hw : IsDigits w) : ∀ c ∈ w, isSpace c = false := by
    intro c hc
    have hdigit : c.isDigit := hw.2 c hc
    exact isSpace_eq_false_of_isWordChar (by simp [isWordChar, Char.isAlphanum, hdigit])
  have hmarks : ∀ t ∈ marks, t.lexeme.toList.all fun c => !isSpace c := by decide
  obtain ⟨c, cs, rfl, hclass⟩ := h.exists_head
  cases hclass with
  | number _ hw =>
    rcases hw with hw | ⟨whole, fraction, hwhole, hfraction, he⟩
    · exact hdigits hw
    · rw [he]
      intro d hd
      rcases List.mem_append.mp hd with hd | hd
      · exact hdigits hwhole d hd
      · rcases List.mem_cons.mp hd with rfl | hd
        · decide
        · exact hdigits hfraction d hd
  | word _ _ hw =>
    intro d hd
    have hall := prefix_takeWhile_isWordChar hw List.prefix_rfl
    exact isSpace_eq_false_of_isWordChar (List.all_eq_true.mp List.all_takeWhile d (hall.subset hd))
  | mark _ _ ht he =>
    rw [he]
    intro d hd
    simpa using List.all_eq_true.mp (hmarks t ht) d hd

/-- A token in front of a white space ends in front of it. -/
theorem Spells.prefix_append_iff (h : Spells w t) (hc : isSpace c) :
    w <+: cs ++ c :: ds ↔ w <+: cs := by
  refine ⟨fun hfront => ?_, fun hfront => hfront.trans (List.prefix_append cs _)⟩
  rcases List.prefix_or_prefix_of_prefix hfront (List.prefix_append cs (c :: ds)) with hle | ⟨rest, rfl⟩
  · exact hle
  · -- what goes on behind `cs` starts with the white space
    rw [List.prefix_append_right_inj] at hfront
    cases rest with
    | nil => simp
    | cons d rest =>
      obtain ⟨rfl, -⟩ := List.cons_prefix_cons.mp hfront
      have hno := h.isSpace_eq_false d (by simp)
      rw [hc] at hno
      cases hno

theorem longest_append_space_iff (hc : isSpace c) : t.Longest (cs ++ c :: ds) ↔ t.Longest cs := by
  constructor
  · intro h
    refine ⟨h.spells, (h.spells.prefix_append_iff hc).mp h.front, fun w u hw hfront => ?_⟩
    exact h.length_le w u hw ((hw.prefix_append_iff hc).mpr hfront)
  · intro h
    refine ⟨h.spells, (h.spells.prefix_append_iff hc).mpr h.front, fun w u hw hfront => ?_⟩
    exact h.length_le w u hw ((hw.prefix_append_iff hc).mp hfront)

/-- What is read in front of white space does not depend on what stands behind it. -/
theorem longest?_append_space (hc : isSpace c) : longest? (cs ++ c :: ds) = longest? cs := by
  ext t
  rw [longest?_eq_some_iff, longest?_eq_some_iff, longest_append_space_iff hc]

/-! ### One token at a time -/

theorem scanFrom_of_end (h : cs.drop (gap false cs).length = []) :
    scanFrom loc cs = .ok [⟨.endOfInput, loc.afterAll (gap false cs)⟩] := by
  rw [scanFrom]
  split
  · rfl
  · next he => rw [h] at he; cases he

theorem scanFrom_of_none {rest : List Char} (h : cs.drop (gap false cs).length = c :: rest)
    (ht : longest? (c :: rest) = none) :
    scanFrom loc cs = .error ⟨c, loc.afterAll (gap false cs)⟩ := by
  rw [scanFrom]
  split
  · next he => rw [h] at he; cases he
  · next he =>
    obtain ⟨rfl, rfl⟩ := List.cons.inj (h.symm.trans he)
    split
    · rfl
    · next hsome => rw [ht] at hsome; cases hsome

theorem scanFrom_of_longest {rest : List Char} (h : cs.drop (gap false cs).length = c :: rest)
    (ht : longest? (c :: rest) = some t) :
    scanFrom loc cs = (scanFrom ((loc.afterAll (gap false cs)).afterAll t.lexeme.toList)
      ((c :: rest).drop t.lexeme.toList.length)).map (⟨t, loc.afterAll (gap false cs)⟩ :: ·) := by
  obtain ⟨more, hmore⟩ := eq_lexeme_append_of_longest? ht
  rw [hmore, List.drop_left, scanFrom]
  split
  · next he => rw [h] at he; cases he
  · next he =>
    obtain ⟨rfl, rfl⟩ := List.cons.inj (h.symm.trans he)
    split
    · next hnone => rw [ht] at hnone; cases hnone
    · next hsome =>
      rw [ht] at hsome
      cases hsome
      simp only [hmore, List.drop_left]
      cases scanFrom ((loc.afterAll (gap false cs)).afterAll t.lexeme.toList) more <;> rfl

theorem scanFrom_of_some {rest : List Char} (h : cs.drop (gap false cs).length = t.lexeme.toList ++ rest)
    (ht : longest? (t.lexeme.toList ++ rest) = some t) :
    scanFrom loc cs = (scanFrom ((loc.afterAll (gap false cs)).afterAll t.lexeme.toList) rest).map
      (⟨t, loc.afterAll (gap false cs)⟩ :: ·) := by
  obtain ⟨c, more, hmore⟩ := List.exists_cons_of_ne_nil
    (List.append_ne_nil_of_left_ne_nil (lexeme_ne_nil_of_longest? ht) rest)
  have hdrop : (c :: more).drop t.lexeme.toList.length = rest := by
    rw [← hmore, List.drop_left]
  rw [hmore] at h ht
  rw [scanFrom_of_longest h ht, hdrop]

/-- What is skipped in front of a text only moves the place at which it is scanned. -/
theorem scanFrom_append {blank : List Char} (h : gap false (blank ++ cs) = blank ++ gap false cs) :
    scanFrom loc (blank ++ cs) = scanFrom (loc.afterAll blank) cs := by
  have hloc : loc.afterAll (gap false (blank ++ cs)) = (loc.afterAll blank).afterAll (gap false cs) := by
    rw [h, Location.afterAll_append]
  have hdrop : (blank ++ cs).drop (gap false (blank ++ cs)).length = cs.drop (gap false cs).length := by
    rw [h, List.length_append, List.drop_append, Nat.add_sub_cancel_left]
    simp
  cases hrest : cs.drop (gap false cs).length with
  | nil => rw [scanFrom_of_end hrest, scanFrom_of_end (hdrop.trans hrest), hloc]
  | cons c rest =>
    cases ht : longest? (c :: rest) with
    | none => rw [scanFrom_of_none hrest ht, scanFrom_of_none (hdrop.trans hrest) ht, hloc]
    | some t => rw [scanFrom_of_longest hrest ht, scanFrom_of_longest (hdrop.trans hrest) ht, hloc]

theorem ne_nil_of_scanFrom (h : scanFrom loc cs = .ok ls) : ls ≠ [] := by
  cases scanned_of_scanFrom h with
  | last => exact List.cons_ne_nil _ _
  | cons => exact List.cons_ne_nil _ _

/-! ### A newline in front of more text -/

/-- A newline ends a comment: what is skipped goes on behind it if all in front of it is skipped. -/
theorem gap_append_newline (inside : Bool) (cs ds : List Char) : gap inside (cs ++ '\n' :: ds) =
    if gap inside cs = cs then cs ++ '\n' :: gap false ds else gap inside cs := by
  induction cs generalizing inside with
  | nil => cases inside <;> rfl
  | cons c cs ih =>
    have hgo (b : Bool) : c :: gap b (cs ++ '\n' :: ds) =
        if c :: gap b cs = c :: cs then c :: cs ++ '\n' :: gap false ds else c :: gap b cs := by
      simp only [ih b, List.cons_inj_right]
      split <;> rfl
    have hhead : (cs ++ '\n' :: ds).head? = some '/' ↔ cs.head? = some '/' := by
      cases cs <;> simp
    cases inside with
    | true => exact hgo _
    | false =>
      simp only [List.cons_append, gap, hhead]
      split
      · exact hgo false
      · split
        · exact hgo true
        · rfl

/-- What can be scanned leaves the scan behind a newline as it was, and its end of input makes room for
the tokens there. -/
theorem scanFrom_append_newline (h : scanFrom loc cs = .ok ls) (ds : List Char) :
    scanFrom loc (cs ++ '\n' :: ds) =
      (scanFrom (loc.afterAll (cs ++ ['\n'])) ds).map (ls.dropLast ++ ·) := by
  fun_induction scanFrom loc cs generalizing ls with
  | case1 =>
    rename_i loc cs _ _ hdrop
    cases h
    obtain ⟨hgap, -⟩ := blankEnd_of_drop_gap hdrop
    have hskip : gap false (cs ++ ['\n'] ++ ds) = cs ++ ['\n'] ++ gap false ds := by
      rw [List.append_assoc, List.singleton_append, gap_append_newline, if_pos hgap]
      simp
    have hscan : scanFrom loc (cs ++ ['\n'] ++ ds) = scanFrom (loc.afterAll (cs ++ ['\n'])) ds :=
      scanFrom_append hskip
    rw [List.append_assoc, List.singleton_append] at hscan
    rw [hscan]
    cases scanFrom (loc.afterAll (cs ++ ['\n'])) ds <;> rfl
  | case2 => cases h
  | case3 => cases h
  | case4 =>
    rename_i loc cs _ _ c rest hdrop t ht _ lexemes hrest ih
    cases h
    have hdrop : cs.drop (gap false cs).length = c :: rest := hdrop
    obtain ⟨he, -, -⟩ := blank_of_drop_gap hdrop
    have hle : (gap false cs).length ≤ cs.length := by
      conv_rhs => rw [he, List.length_append]
      exact Nat.le_add_right _ _
    obtain ⟨more, hmore⟩ := eq_lexeme_append_of_longest? ht
    have hgap : gap false (cs ++ '\n' :: ds) = gap false cs := by
      rw [gap_append_newline, if_neg]
      intro hall
      rw [hall, List.drop_length] at hdrop
      cases hdrop
    have hdrop' : (cs ++ '\n' :: ds).drop (gap false (cs ++ '\n' :: ds)).length =
        t.lexeme.toList ++ (more ++ '\n' :: ds) := by
      rw [hgap, List.drop_append_of_le_length hle, hdrop, hmore, List.append_assoc]
    have ht' : longest? (t.lexeme.toList ++ (more ++ '\n' :: ds)) = some t := by
      rw [← List.append_assoc, longest?_append_space rfl, ← hmore, ht]
    rw [hmore, List.drop_left] at hrest ih
    have hloc : ((loc.afterAll (gap false cs)).afterAll t.lexeme.toList).afterAll (more ++ ['\n']) =
        loc.afterAll (cs ++ ['\n']) := by
      conv_rhs => rw [he, hmore]
      simp only [Location.afterAll_append]
    obtain ⟨l, ls, rfl⟩ := List.exists_cons_of_ne_nil (ne_nil_of_scanFrom hrest)
    rw [scanFrom_of_some hdrop' ht', hgap, ih hrest, hloc]
    cases scanFrom (loc.afterAll (cs ++ ['\n'])) ds <;> rfl

/-! ### Single spaces -/

/-- The texts of tokens with a space between each and the next. -/
def joined (ts : List Token) : String := " ".intercalate (ts.map (·.lexeme))

theorem Laid.exists_tokens {before : List Char} (h : Laid before cs ls) :
    ∃ ts, ls.map (·.token) = ts ++ [.endOfInput] ∧ ∀ t ∈ ts, Spells t.lexeme.toList t := by
  induction h with
  | last => exact ⟨[], rfl, nofun⟩
  | @cons _ _ _ t _ _ hlongest _ _ ih =>
    obtain ⟨ts, hts, hspells⟩ := ih
    refine ⟨t :: ts, ?_, List.forall_mem_cons.mpr ⟨hlongest.spells, hspells⟩⟩
    rw [List.map_cons, hts, List.cons_append]

/-- No token starts like a comment. -/
theorem Spells.not_comment (h : Spells w t) : ¬['/', '/'] <+: w := by
  have hmarks : ∀ t ∈ marks, ¬['/', '/'] <+: t.lexeme.toList := by decide
  rintro ⟨cs, rfl⟩
  obtain ⟨c, ds, he, hclass⟩ := h.exists_head
  obtain ⟨rfl, -⟩ := List.cons.inj he
  cases hclass with
  | number hdigit _ => cases hdigit
  | word hstart _ _ => cases hstart
  | mark _ _ ht he => exact hmarks t ht (he ▸ List.prefix_append _ cs)

theorem Spells.gap_append_space (h : Spells w t) (cs : List Char) : gap false (w ++ ' ' :: cs) = [] := by
  obtain ⟨c, w, rfl⟩ := List.exists_cons_of_ne_nil h.ne_nil
  rw [List.cons_append, gap, h.isSpace_eq_false c List.mem_cons_self, if_neg Bool.false_ne_true, if_neg]
  rintro ⟨rfl, hhead⟩
  cases w with
  | nil => cases hhead
  | cons d w =>
    cases hhead
    exact h.not_comment (List.prefix_append ['/', '/'] w)

theorem toList_joined_cons (t : Token) (ts : List Token) :
    (joined (t :: (ts ++ [.endOfInput]))).toList =
      t.lexeme.toList ++ ' ' :: (joined (ts ++ [.endOfInput])).toList := by
  cases ts <;> simp [joined, String.toList_intercalate, List.intercalate]

theorem scanFrom_joined {ts : List Token} (h : ∀ t ∈ ts, Spells t.lexeme.toList t) (loc : Location) :
    ∃ ls, scanFrom loc (joined (ts ++ [.endOfInput])).toList = .ok ls ∧
      ls.map (·.token) = ts ++ [.endOfInput] := by
  induction ts generalizing loc with
  | nil => exact ⟨_, scanFrom_of_end rfl, rfl⟩
  | cons t ts ih =>
    obtain ⟨ht, hts⟩ := List.forall_mem_cons.mp h
    generalize hrest : (joined (ts ++ [.endOfInput])).toList = rest at ih
    have hgap : gap false (t.lexeme.toList ++ ' ' :: rest) = [] := ht.gap_append_space rest
    have hdrop : (t.lexeme.toList ++ ' ' :: rest).drop
        (gap false (t.lexeme.toList ++ ' ' :: rest)).length = t.lexeme.toList ++ ' ' :: rest := by
      rw [hgap, List.length_nil, List.drop_zero]
    have hread : longest? (t.lexeme.toList ++ ' ' :: rest) = some t := by
      rw [longest?_append_space rfl, ht.longest?]
    have hspace : gap false ([' '] ++ rest) = [' '] ++ gap false rest := rfl
    obtain ⟨ls, hls, htokens⟩ := ih hts ((loc.afterAll t.lexeme.toList).afterAll [' '])
    refine ⟨⟨t, loc⟩ :: ls, ?_, ?_⟩
    · rw [List.cons_append, toList_joined_cons, hrest, scanFrom_of_some hdrop hread, hgap,
        Location.afterAll_nil, ← List.singleton_append, scanFrom_append hspace, hls]
      rfl
    · rw [List.map_cons, htokens, List.cons_append]

/-- The texts of the tokens of a source, that of the end of input too, are scanned to the same tokens again
if there is a single space between each and the next. -/
theorem scan_joined {source : String} (h : scan source = .ok ls) :
    ∃ ls', scan (" ".intercalate (ls.map (·.token.lexeme))) = .ok ls' ∧
      ls'.map (·.token) = ls.map (·.token) := by
  obtain ⟨ts, hts, hspells⟩ := (laid_of_scan h).exists_tokens
  have htexts : " ".intercalate (ls.map (·.token.lexeme)) = joined (ls.map (·.token)) := by
    rw [joined, List.map_map]
    rfl
  rw [htexts, hts]
  exact scanFrom_joined hspells .start

/-- Tokens that stand close together, and a comment: with spaces between them two slashes are no comment. -/
theorem scan_joined_dense : ∃ ls ls', scan "a<=10/ /!2.5// <\n=1" = .ok ls ∧
    " ".intercalate (ls.map (·.token.lexeme)) = "a <= 10 / / ! 2.5 = 1 " ∧
    scan "a <= 10 / / ! 2.5 = 1 " = .ok ls' ∧ ls'.map (·.token) = ls.map (·.token) := by
  obtain ⟨ls, hls, htexts⟩ := Except.any_toOption (x := scan "a<=10/ /!2.5// <\n=1") (q := fun ls =>
    " ".intercalate (ls.map (·.token.lexeme)) = "a <= 10 / / ! 2.5 = 1 ") (by decide +kernel)
  have htexts := of_decide_eq_true htexts
  obtain ⟨ls', hls', htokens⟩ := scan_joined hls
  exact ⟨ls, ls', hls, htexts, htexts ▸ hls', htokens⟩

end Token

end Labyrinth
