import Labyrinth.Token

/-!
# From source text to tokens

`Token.scan` cuts a text into tokens. White space and comments separate tokens, and each token is
the longest that stands at its place; a character at which no token starts ends the scan. What
`Token.longest?` takes off a text is the lexeme of its token (`eq_lexeme_append_of_longest?`).
-/

namespace Labyrinth

/-- A character at which no token starts. -/
structure LexicalError where
  char : Char
  loc : Location
deriving DecidableEq, Repr

def LexicalError.message (e : LexicalError) : String :=
  "Unexpected character '" ++ e.char.toString ++ "'"

namespace Token

/-- White space between tokens. -/
def isSpace (c : Char) : Bool :=
  c = ' ' || c = '\t' || c = '\n' || c = '\x0c' || c = '\r'

def isWordStart (c : Char) : Bool :=
  c.isAlpha || c = '_'

def isWordChar (c : Char) : Bool :=
  c.isAlphanum || c = '_'

/-- The white space and comments in front of a text, which starts inside a comment or outside.
A comment goes from two slashes up to the end of the line. -/
def gap : Bool → List Char → List Char
  | _, [] => []
  | true, c :: cs => c :: gap (c ≠ '\n') cs
  | false, c :: cs =>
    if isSpace c then c :: gap false cs
    else if c = '/' ∧ cs.head? = some '/' then c :: gap true cs
    else []

/-- The digits in front of a text, with a fraction if a point and a digit follow them. -/
def numeral (cs : List Char) : List Char :=
  let whole := cs.takeWhile Char.isDigit
  match cs.dropWhile Char.isDigit with
  | '.' :: d :: rest =>
    if d.isDigit then whole ++ '.' :: (d :: rest).takeWhile Char.isDigit else whole
  | _ => whole

/-- The marks of the language. Of two that start alike the longer comes first. -/
def marks : List Token :=
  [.lessEq, .greaterEq, .equal, .notEqual, .and, .or, .less, .greater, .assign, .not, .plus, .minus,
    .star, .slash, .percent].map operator ++
  [.openParen, .closeParen, .openBrace, .closeBrace, .comma, .semicolon].map punctuation

/-- The longest mark in front of a text. -/
def mark? (cs : List Char) : Option Token :=
  marks.find? fun t => t.lexeme.toList.isPrefixOf cs

/-- The longest token in front of a text that starts with neither white space nor a comment. -/
def longest? (cs : List Char) : Option Token :=
  match cs with
  | [] => none
  | c :: _ =>
    if c.isDigit then some (.number (String.ofList (numeral cs)))
    else if isWordStart c then some (ofWord (String.ofList (cs.takeWhile isWordChar)))
    else mark? cs

/-! ### The token is what is read -/

@[simp] theorem lexeme_ofWord (w : String) : (ofWord w).lexeme = w := by
  unfold ofWord
  cases h : reserved.find? (·.lexeme = w) with
  | none => rfl
  | some t => simpa using List.find?_some h

theorem takeWhile_isPrefix {α : Type} (p : α → Bool) (cs : List α) :
    ∃ rest, cs = cs.takeWhile p ++ rest :=
  ⟨_, List.takeWhile_append_dropWhile.symm⟩

theorem numeral_isPrefix (cs : List Char) : ∃ rest, cs = numeral cs ++ rest := by
  have hs : cs = cs.takeWhile Char.isDigit ++ cs.dropWhile Char.isDigit :=
    List.takeWhile_append_dropWhile.symm
  simp only [numeral]
  split
  · next d rest h =>
    split
    · obtain ⟨more, hm⟩ := takeWhile_isPrefix Char.isDigit (d :: rest)
      refine ⟨more, ?_⟩
      rw [List.append_assoc, List.cons_append, ← hm, ← h]
      exact hs
    · exact ⟨_, hs⟩
  · exact ⟨_, hs⟩

theorem mark?_isPrefix {cs : List Char} {t : Token} (h : mark? cs = some t) :
    ∃ rest, cs = t.lexeme.toList ++ rest := by
  have hp : t.lexeme.toList.isPrefixOf cs = true := by simpa using List.find?_some h
  obtain ⟨rest, hr⟩ := List.isPrefixOf_iff_prefix.1 hp
  exact ⟨rest, hr.symm⟩

theorem lexeme_ne_nil_of_mem_marks : ∀ t ∈ marks, t.lexeme.toList ≠ [] := by
  decide

/-- A token is read off the front of a text. -/
theorem eq_lexeme_append_of_longest? {cs : List Char} {t : Token} (h : longest? cs = some t) :
    ∃ rest, cs = t.lexeme.toList ++ rest := by
  cases cs with
  | nil => simp [longest?] at h
  | cons c cs =>
    simp only [longest?] at h
    split at h
    · cases h
      simpa [lexeme] using numeral_isPrefix (c :: cs)
    · split at h
      · cases h
        simpa using takeWhile_isPrefix isWordChar (c :: cs)
      · exact mark?_isPrefix h

/-- A token that is read is not empty. -/
theorem lexeme_ne_nil_of_longest? {cs : List Char} {t : Token} (h : longest? cs = some t) :
    t.lexeme.toList ≠ [] := by
  cases cs with
  | nil => simp [longest?] at h
  | cons c cs =>
    simp only [longest?] at h
    split at h
    · next hd =>
      cases h
      simp only [lexeme, String.toList_ofList, numeral, List.takeWhile_cons, hd, if_true]
      split
      · split <;> simp
      · simp
    · split at h
      · next hw =>
        have hc : isWordChar c = true := by
          simp only [isWordStart, isWordChar, Char.isAlphanum, Bool.or_eq_true] at hw ⊢
          rcases hw with hw | hw
          · exact .inl (.inl hw)
          · exact .inr hw
        cases h
        simp [hc]
      · exact lexeme_ne_nil_of_mem_marks t (List.mem_of_find?_eq_some h)

/-! ### The scan -/

/-- The tokens of a text that starts at a place. -/
def scanFrom (loc : Location) (cs : List Char) : Except LexicalError (List Lexeme) :=
  let blank := gap false cs
  let here := loc.afterAll blank
  match _hr : cs.drop blank.length with
  | [] => .ok [⟨.endOfInput, here⟩]
  | c :: rest =>
    match _ht : longest? (c :: rest) with
    | none => .error ⟨c, here⟩
    | some t =>
      let word := t.lexeme.toList
      match scanFrom (here.afterAll word) ((c :: rest).drop word.length) with
      | .error e => .error e
      | .ok lexemes => .ok (⟨t, here⟩ :: lexemes)
termination_by cs.length
decreasing_by
  have hl := congrArg List.length _hr
  have hw := List.length_pos_iff.2 (lexeme_ne_nil_of_longest? _ht)
  simp only [List.length_drop, List.length_cons] at hl ⊢
  omega

/-- The tokens of a source text, the last of which is the end of input. -/
def scan (source : String) : Except LexicalError (List Lexeme) :=
  scanFrom .start source.toList

end Token

end Labyrinth
