import Mathlib.Data.List.DropRight
import Mathlib.Data.String.Basic
import Labyrinth.Proofs.Except
import Labyrinth.Proofs.Scanning.Spelling

/-!
# Where the tokens of a text stand

Between the tokens of a text stand only white space and comments (`Text.Blank`). `Token.Laid before cs ls`:
behind the text `before`, the tokens `ls` stand in the text `cs`, each of them as long as it can be and at the
location that its place has. Counted in bytes this is `Token.Placed`, and what is scanned is placed so
(`Token.scan_placed`).
-/

namespace Labyrinth

/-! ### White space and comments -/

namespace Text

/-- White space, and comments with the newline behind them. -/
inductive Blank : List Char → Prop
  | nil : Blank []
  | space {c : Char} {cs : List Char} : c ∈ [' ', '\t', '\n', '\x0c', '\r'] → Blank cs → Blank (c :: cs)
  | comment {comment cs : List Char} : '\n' ∉ comment → Blank ('\n' :: cs) →
      Blank ('/' :: '/' :: comment ++ '\n' :: cs)

/-- White space and comments, the last of which may go up to the end of the text. -/
def BlankEnd (cs : List Char) : Prop :=
  Blank cs ∨ ∃ blank comment, Blank blank ∧ '\n' ∉ comment ∧ cs = blank ++ '/' :: '/' :: comment

/-- From the byte `a` up to the byte `b` the source has this text. -/
def Part (source : List Char) (a b : Nat) (text : List Char) : Prop :=
  ∃ before after, source = before ++ text ++ after ∧ String.utf8Len before = a ∧
    String.utf8Len (before ++ text) = b

variable {c : Char} {cs : List Char}

theorem BlankEnd.space (hc : c ∈ [' ', '\t', '\n', '\x0c', '\r']) (h : BlankEnd cs) :
    BlankEnd (c :: cs) := by
  rcases h with h | ⟨blank, comment, hblank, hno, rfl⟩
  · exact .inl (.space hc h)
  · exact .inr ⟨c :: blank, comment, .space hc hblank, hno, rfl⟩

theorem BlankEnd.comment {comment : List Char} (hno : '\n' ∉ comment) (h : BlankEnd cs) :
    BlankEnd ('/' :: '/' :: comment ++ '\n' :: cs) := by
  have hnewline : '\n' ∈ [' ', '\t', '\n', '\x0c', '\r'] := by decide
  rcases h with h | ⟨blank, last, hblank, hlast, rfl⟩
  · exact .inl (.comment hno (.space hnewline h))
  · refine .inr ⟨'/' :: '/' :: comment ++ '\n' :: blank, last,
      .comment hno (.space hnewline hblank), hlast, ?_⟩
    simp

end Text

/-- The location behind a text: one line more than it has newlines, and one byte more than there are behind
the last of them. -/
def Location.behind (cs : List Char) : Location :=
  ⟨1 + cs.count '\n', 1 + String.utf8Len (cs.rtakeWhile (· ≠ '\n'))⟩

theorem Location.afterAll_start (cs : List Char) : start.afterAll cs = behind cs := by
  induction cs using List.reverseRecOn with
  | nil => rfl
  | append_singleton cs c ih =>
    rw [afterAll_append, ih, afterAll_cons, afterAll_nil, after]
    split
    · next hc =>
      subst hc
      simp [behind]
      omega
    · next hc => simp [behind, hc, Nat.add_assoc]

namespace Token

open Text

variable {c : Char} {cs before : List Char} {loc : Location} {ls : List Lexeme}

/-! ### What is skipped -/

theorem isSpace_iff : isSpace c ↔ c ∈ [' ', '\t', '\n', '\x0c', '\r'] := by
  simp [isSpace, or_assoc]

/-- A comment goes up to a newline or to the end. -/
theorem gap_true (cs : List Char) : '\n' ∉ cs ∧ gap true cs = cs ∨
    ∃ comment rest, '\n' ∉ comment ∧ cs = comment ++ '\n' :: rest ∧
      gap true cs = comment ++ '\n' :: gap false rest := by
  induction cs with
  | nil => exact .inl ⟨List.not_mem_nil, rfl⟩
  | cons c cs ih =>
    rw [gap]
    by_cases hc : c = '\n'
    · subst hc
      exact .inr ⟨[], cs, List.not_mem_nil, rfl, rfl⟩
    · rw [decide_eq_true hc]
      rcases ih with ⟨hno, he⟩ | ⟨comment, rest, hno, rfl, he⟩
      · exact .inl ⟨by simp [Ne.symm hc, hno], by rw [he]⟩
      · exact .inr ⟨c :: comment, rest, by simp [Ne.symm hc, hno], rfl, by rw [he]; rfl⟩

/-- What is skipped is blank, and what stands behind it is neither white space nor a comment. -/
theorem gap_cases (cs : List Char) : gap false cs = cs ∧ BlankEnd cs ∨
    ∃ c rest, cs = gap false cs ++ c :: rest ∧ Blank (gap false cs) ∧
      ¬(c = '/' ∧ rest.head? = some '/') := by
  match cs with
  | [] => exact .inl ⟨rfl, .inl .nil⟩
  | c :: cs =>
    rw [gap]
    split
    · next hspace =>
      have hc := isSpace_iff.mp hspace
      rcases gap_cases cs with ⟨he, hblank⟩ | ⟨d, rest, he, hblank, hno⟩
      · exact .inl ⟨by rw [he], hblank.space hc⟩
      · exact .inr ⟨d, rest, congrArg (c :: ·) he, hblank.space hc, hno⟩
    · split
      · next hcomment =>
        obtain ⟨rfl, hhead⟩ := hcomment
        obtain ⟨cs, rfl⟩ := List.head?_eq_some_iff.mp hhead
        rcases gap_true ('/' :: cs) with ⟨hno, he⟩ | ⟨comment, rest, hno, he, hgap⟩
        · refine .inl ⟨by rw [he], .inr ⟨[], cs, .nil, ?_, rfl⟩⟩
          exact fun h => hno (List.mem_cons_of_mem _ h)
        · -- the comment starts with the second slash, since a newline is none
          cases comment with
          | nil => cases he
          | cons d comment =>
            obtain ⟨rfl, rfl⟩ := List.cons.inj he
            rw [hgap]
            have hno : '\n' ∉ comment := fun h => hno (List.mem_cons_of_mem _ h)
            rcases gap_cases rest with ⟨he, hblank⟩ | ⟨c, more, he, hblank, hstop⟩
            · exact .inl ⟨by rw [he]; rfl, hblank.comment hno⟩
            · refine .inr ⟨c, more, ?_, .comment hno (.space (by decide) hblank), hstop⟩
              conv_lhs => rw [he]
              simp
      · next hno => exact .inr ⟨c, cs, rfl, .nil, hno⟩
termination_by cs.length

theorem blankEnd_of_drop_gap (h : cs.drop (gap false cs).length = []) :
    gap false cs = cs ∧ BlankEnd cs := by
  rcases gap_cases cs with hend | ⟨c, rest, he, -⟩
  · exact hend
  · generalize gap false cs = g at h he
    subst he
    rw [List.drop_left] at h
    cases h

theorem blank_of_drop_gap {rest : List Char} (h : cs.drop (gap false cs).length = c :: rest) :
    cs = gap false cs ++ c :: rest ∧ Blank (gap false cs) ∧ ¬(c = '/' ∧ rest.head? = some '/') := by
  rcases gap_cases cs with ⟨he, -⟩ | ⟨d, more, he, hblank⟩
  · rw [he, List.drop_length] at h
    cases h
  · generalize gap false cs = g at h he hblank
    subst he
    rw [List.drop_left] at h
    cases h
    exact ⟨rfl, hblank⟩

/-! ### The text and its tokens -/

/-- Behind the text `before` the tokens stand in the text `cs`, and the end of input behind it. -/
inductive Laid : List Char → List Char → List Lexeme → Prop
  | last {before cs : List Char} : BlankEnd cs → Laid before cs [⟨.endOfInput, .behind (before ++ cs)⟩]
  | cons {before gap rest : List Char} {t : Token} {ls : List Lexeme} : Blank gap →
      t.Longest (t.lexeme.toList ++ rest) → ¬['/', '/'] <+: t.lexeme.toList ++ rest →
      Laid (before ++ gap ++ t.lexeme.toList) rest ls →
      Laid before (gap ++ (t.lexeme.toList ++ rest)) (⟨t, .behind (before ++ gap)⟩ :: ls)

/-- An identifier is a word. -/
theorem Laid.isWord (h : Laid before cs ls) {name : String} {i : Location}
    (hmem : ⟨.identifier name, i⟩ ∈ ls) : IsWord name.toList := by
  induction h with
  | last => simp at hmem
  | cons _ hlongest _ _ ih =>
    rcases List.mem_cons.mp hmem with he | hmem
    · cases he
      exact hlongest.spells.isWord
    · exact ih hmem

theorem Laid.length_le (h : Laid before cs ls) : ls.length ≤ cs.length + 1 := by
  induction h with
  | last => simp
  | cons _ hlongest _ _ ih =>
    have hpos := List.length_pos_iff.mpr hlongest.spells.ne_nil
    simp only [List.length_cons, List.length_append]
    omega

theorem behind_append (before cs : List Char) :
    (Location.behind before).afterAll cs = .behind (before ++ cs) := by
  rw [← Location.afterAll_start, ← Location.afterAll_start, Location.afterAll_append]

theorem laid_of_scanFrom (h : scanFrom loc cs = .ok ls) :
    ∀ {before : List Char}, loc = .behind before → Laid before cs ls := by
  fun_induction scanFrom loc cs generalizing ls with
  | case1 =>
    rename_i loc cs _ _ hdrop
    rintro before rfl
    cases h
    obtain ⟨hgap, hblank⟩ := blankEnd_of_drop_gap hdrop
    show Laid before cs [⟨.endOfInput, (Location.behind before).afterAll (gap false cs)⟩]
    rw [hgap, behind_append]
    exact .last hblank
  | case2 => cases h
  | case3 => cases h
  | case4 =>
    rename_i loc cs _ _ c rest hdrop t ht _ lexemes hrest ih
    rintro before rfl
    cases h
    have hhere := behind_append before (gap false cs)
    have hthere : ((Location.behind before).afterAll (gap false cs)).afterAll t.lexeme.toList =
        .behind (before ++ gap false cs ++ t.lexeme.toList) := by rw [hhere, behind_append]
    obtain ⟨he, hblank, hstop⟩ := blank_of_drop_gap hdrop
    obtain ⟨more, hmore⟩ := eq_lexeme_append_of_longest? ht
    have hlongest := longest_of_longest? ht
    rw [hmore] at hlongest he hrest ih
    rw [List.drop_left] at hrest ih
    have hcomment : ¬['/', '/'] <+: t.lexeme.toList ++ more := by
      rintro ⟨tail, htail⟩
      obtain ⟨rfl, rfl⟩ := List.cons.inj (htail.trans hmore.symm)
      exact hstop ⟨rfl, rfl⟩
    have hlaid := Laid.cons hblank hlongest hcomment (ih hrest hthere)
    rw [← he, ← hhere] at hlaid
    exact hlaid

theorem laid_of_scan {source : String} (h : scan source = .ok ls) : Laid [] source.toList ls :=
  laid_of_scanFrom h rfl

/-! ### Places in bytes -/

/-- The bytes at which tokens end that start at the offsets. -/
def stops (offsets : List Nat) (body : List Lexeme) : List Nat :=
  List.zipWith (fun a l => a + String.utf8Len l.token.lexeme.toList) offsets body

/-- The tokens stand at the offsets in the source, from the byte `start` on. -/
structure Placed (source : List Char) (start : Nat) (body : List Lexeme) (offsets : List Nat) : Prop where
  length_eq : offsets.length = body.length
  increasing : offsets.Pairwise (· < ·)
  lexemes : ∀ x ∈ offsets.zip body,
    Part source x.1 (x.1 + String.utf8Len x.2.token.lexeme.toList) x.2.token.lexeme.toList
  locations : ∀ x ∈ offsets.zip body, ∃ before, Part source 0 x.1 before ∧ x.2.loc = .behind before
  /-- No token can be extended, and none is the start of a comment. -/
  longest : ∀ x ∈ offsets.zip body, ∃ rest, Part source x.1 (String.utf8Len source) rest ∧
    x.2.token.Longest rest ∧ ¬['/', '/'] <+: rest
  /-- In front of each token, behind the one before it. -/
  between : ∀ x ∈ (start :: stops offsets body).zip offsets,
    ∃ gap, Part source x.1 x.2 gap ∧ Blank gap
  behind : ∀ a ∈ (start :: stops offsets body).getLast?, ∃ gap,
    Part source a (String.utf8Len source) gap ∧ BlankEnd gap
  reserved : ∀ l ∈ body, ((∃ word, l.token = .keyword word) ∨ ∃ value, l.token = .boolean value) ↔
    l.token.lexeme ∈ reservedWords

theorem utf8Len_pos (h : cs ≠ []) : 0 < String.utf8Len cs := by
  obtain ⟨c, cs, rfl⟩ := List.exists_cons_of_ne_nil h
  have hpos := c.utf8Size_pos
  rw [String.utf8Len_cons]
  omega

theorem Laid.exists_placed (h : Laid before cs ls) : ∃ body offsets,
    ls = body ++ [⟨.endOfInput, .behind (before ++ cs)⟩] ∧
      Placed (before ++ cs) (String.utf8Len before) body offsets ∧
      ∀ a ∈ offsets, String.utf8Len before ≤ a := by
  induction h with
  | @last before cs hblank =>
    refine ⟨[], [], rfl, ?_, nofun⟩
    constructor
    case length_eq => rfl
    case increasing => exact .nil
    case behind =>
      intro a ha
      obtain rfl : String.utf8Len before = a := by simpa [stops] using ha
      exact ⟨cs, ⟨before, [], by simp, rfl, rfl⟩, hblank⟩
    all_goals nofun
  | @cons before gap rest t ls hgap hlongest hcomment _ ih =>
    obtain ⟨body, offsets, rfl, hplaced, hle⟩ := ih
    have hsource : before ++ (gap ++ (t.lexeme.toList ++ rest)) =
        before ++ gap ++ t.lexeme.toList ++ rest := by simp
    have hlen : String.utf8Len (before ++ gap ++ t.lexeme.toList) =
        String.utf8Len (before ++ gap) + String.utf8Len t.lexeme.toList := String.utf8Len_append _ _
    have hbefore : String.utf8Len (before ++ gap) = String.utf8Len before + String.utf8Len gap :=
      String.utf8Len_append _ _
    have hpos := utf8Len_pos hlongest.spells.ne_nil
    rw [hsource]
    refine ⟨⟨t, .behind (before ++ gap)⟩ :: body, String.utf8Len (before ++ gap) :: offsets, rfl,
      ?_, ?_⟩
    · rw [hlen] at hplaced
      constructor
      case length_eq => exact congrArg (· + 1) hplaced.length_eq
      case increasing =>
        exact .cons (fun a ha => by have := hle a ha; omega) hplaced.increasing
      case lexemes =>
        refine List.forall_mem_cons.mpr ⟨⟨before ++ gap, rest, rfl, rfl, hlen⟩, hplaced.lexemes⟩
      case locations =>
        refine List.forall_mem_cons.mpr
          ⟨⟨before ++ gap, ⟨[], t.lexeme.toList ++ rest, ?_, rfl, rfl⟩, rfl⟩,
          hplaced.locations⟩
        simp
      case longest =>
        refine List.forall_mem_cons.mpr ⟨⟨_, ⟨before ++ gap, [], ?_, rfl, ?_⟩, hlongest, hcomment⟩,
          hplaced.longest⟩
        · simp
        · simp
      case between =>
        refine List.forall_mem_cons.mpr
          ⟨⟨gap, ⟨before, t.lexeme.toList ++ rest, ?_, rfl, rfl⟩, hgap⟩,
          hplaced.between⟩
        simp
      case behind => exact hplaced.behind
      case reserved => exact List.forall_mem_cons.mpr ⟨hlongest.spells.reserved_iff, hplaced.reserved⟩
    · refine List.forall_mem_cons.mpr ⟨by omega, fun a ha => ?_⟩
      have := hle a ha
      omega

/-! ### The scan -/

/-- The tokens that are scanned stand at increasing places of the source text with nothing but white space
and comments between them, each at the location of its place and as long as it can be, and the end of input
stands behind the text. -/
theorem scan_placed {source : String} {ls : List Lexeme} (h : scan source = .ok ls) :
    ∃ body offsets, ls = body ++ [⟨.endOfInput, .behind source.toList⟩] ∧
      Placed source.toList 0 body offsets := by
  obtain ⟨body, offsets, hls, hplaced, -⟩ := (laid_of_scan h).exists_placed
  exact ⟨body, offsets, hls, hplaced⟩

/-- Tokens that stand close together, and a comment with a character of two bytes. -/
theorem scan_placed_dense : ∃ ls body offsets, scan "if1<=2.5/x// ü\n if" = .ok ls ∧
    ls.map (·.token) = [.identifier "if1", .operator .lessEq, .number "2.5", .operator .slash,
      .identifier "x", .keyword .cond, .endOfInput] ∧
    ls = body ++ [⟨.endOfInput, .behind "if1<=2.5/x// ü\n if".toList⟩] ∧
    Placed "if1<=2.5/x// ü\n if".toList 0 body offsets := by
  obtain ⟨ls, hls, htokens⟩ := Except.any_toOption (x := scan "if1<=2.5/x// ü\n if") (q := fun ls =>
    ls.map (·.token) = [.identifier "if1", .operator .lessEq, .number "2.5", .operator .slash,
      .identifier "x", .keyword .cond, .endOfInput]) (by decide +kernel)
  obtain ⟨body, offsets, hplaced⟩ := scan_placed hls
  exact ⟨ls, body, offsets, hls, of_decide_eq_true htokens, hplaced⟩

end Token

end Labyrinth
