import Labyrinth.Json.Reader
import Labyrinth.Proofs.Double.Finite
import Labyrinth.Proofs.Listing.Numerals

/-!
# Reading what was written

`Json.Reader.Reads r v a` says that a reader makes `a` of the pretty text of `v`, at any level and behind
any white space, and leaves what follows the text. There is one rule for each reader that documents of
integers, objects, arrays and nulls are read with.
-/

namespace Labyrinth

namespace Text

/-- The numeral of a natural number has no zero in front, unless it is that zero. -/
theorem head?_toString {n : Nat} (h : 1 < (toString n).toList.length) :
    (toString n).toList.head? ≠ some '0' := by
  rw [Nat.toString_eq_ofList_toDigits, String.toList_ofList] at *
  have hten : 10 ≤ n := by
    by_contra hlt
    rw [Nat.toDigits_of_lt_base (by omega)] at h
    cases h with
    | step h => cases h
  clear h
  induction n using Nat.strongRecOn with
  | ind n ih =>
    have hne : Nat.toDigits 10 (n / 10) ≠ [] := Nat.toDigits_ne_nil
    rw [Nat.toDigits_of_base_le (by decide) hten, List.head?_append_of_ne_nil _ hne]
    by_cases hnext : 10 ≤ n / 10
    · exact ih (n / 10) (by omega) hnext
    · rw [Nat.toDigits_of_lt_base (by omega), List.head?_cons]
      intro hzero
      have hdigit : ∀ k, k < 10 → 0 < k → (k.digitChar) ≠ '0' := by decide
      exact hdigit (n / 10) (by omega) (by omega) (Option.some.inj hzero)

theorem toList_toString_negSucc (k : Nat) :
    (toString (Int.negSucc k)).toList = '-' :: (toString (k + 1)).toList := by
  have happend : toString (Int.negSucc k) = "-" ++ toString (k + 1) := rfl
  rw [happend, String.toList_append]
  rfl

/-- The text of an integer starts with a sign or a digit. -/
theorem toList_toString_eq_cons (n : Int) :
    ∃ c cs, (toString n).toList = c :: cs ∧ (c = '-' ∨ c.isDigit) := by
  cases n with
  | ofNat k =>
    obtain ⟨hne, hdigits⟩ := isDigits_toString k
    obtain ⟨c, cs, hcons⟩ := List.exists_cons_of_ne_nil hne
    exact ⟨c, cs, hcons, .inr (hdigits c (hcons ▸ List.mem_cons_self))⟩
  | negSucc k => exact ⟨'-', _, toList_toString_negSucc k, .inl rfl⟩

end Text

namespace Json.Reader

variable {α β σ : Type} {r : Reader α} {a : α} {v : Json} {c : Char} {cs ds gap rest : List Char}

theorem bind_ok {f : α → Reader β} (h : r cs = .ok (a, ds)) : (r >>= f) cs = f a ds := by
  show (r cs >>= fun p => f p.1 p.2) = f a ds
  rw [h]
  rfl

theorem map_ok {f : α → β} (h : r cs = .ok (a, ds)) : (f <$> r) cs = .ok (f a, ds) := by
  show (r cs >>= fun p => pure (f p.1, p.2)) = .ok (f a, ds)
  rw [h]
  rfl

theorem get_bind {f : List Char → Reader β} : (get >>= f) cs = f cs cs := rfl

theorem skip_cons : skip (c :: cs) = .ok ((), cs) := rfl

/-! ### White space -/

/-- White space and nothing else. -/
def Blank (gap : List Char) : Prop :=
  ∀ c ∈ gap, isSpace c

theorem Blank.nil : Blank [] := nofun

theorem blank_newline (level : Nat) : Blank (newline level) := by
  intro c hc
  rcases List.mem_cons.mp hc with rfl | hc
  · rfl
  · obtain rfl := List.eq_of_mem_replicate hc
    rfl

theorem next?_append (hgap : Blank gap) (hc : isSpace c = false) :
    next? (gap ++ c :: cs) = .ok (some c, c :: cs) := by
  have hdrop : (gap ++ c :: cs).dropWhile isSpace = c :: cs := by
    rw [List.dropWhile_append_of_pos hgap, List.dropWhile_cons_of_neg (by rw [hc]; decide)]
  show Except.ok (((gap ++ c :: cs).dropWhile isSpace).head?, (gap ++ c :: cs).dropWhile isSpace) = _
  rw [hdrop]
  rfl

theorem next?_cons (hc : isSpace c = false) : next? (c :: cs) = .ok (some c, c :: cs) :=
  next?_append .nil hc

theorem close_cons (hc : isSpace c = false) : close c (c :: cs) = .ok ((), cs) := by
  rw [close, bind_ok (next?_cons hc)]
  simp only [if_pos]
  exact skip_cons

/-- A text in which whatever was read before ends: its end, a comma or a new line. -/
def Ends (rest : List Char) : Prop :=
  ∀ c ∈ rest.head?, c = ',' ∨ c = '\n'

theorem Ends.nil : Ends [] := nofun

theorem Ends.comma : Ends (',' :: cs) := by
  rintro c ⟨⟩
  exact .inl rfl

theorem ends_newline (level : Nat) : Ends (newline level ++ cs) := by
  rintro c ⟨⟩
  exact .inr rfl

theorem Ends.head?_ne (h : Ends rest) (hcomma : c ≠ ',') (hline : c ≠ '\n') : rest.head? ≠ some c := by
  intro hhead
  rcases h c hhead with hc | hc
  · exact hcomma hc
  · exact hline hc

/-! ### Strings -/

theorem hex4?_toNat (h : c.toNat < 0x20) :
    hex4? '0' '0' (Nat.digitChar (c.toNat / 16)) (Nat.digitChar (c.toNat % 16)) = some c.toNat := by
  have hall : ∀ n < 0x20, hex4? '0' '0' (Nat.digitChar (n / 16)) (Nat.digitChar (n % 16)) = some n := by
    decide
  exact hall c.toNat h

theorem stringFrom_escape (read : List Char) (c : Char) :
    stringFrom read (escape c ++ cs) = stringFrom (c :: read) cs := by
  unfold escape
  split_ifs with h1 h2 h3 h4 h5 h6 h7 h8
  · subst h1; rfl
  · subst h2; rfl
  · subst h3; rfl
  · subst h4; rfl
  · subst h5; rfl
  · subst h6; rfl
  · subst h7; rfl
  · show stringFrom read
      ('\\' :: 'u' :: '0' :: '0' :: (c.toNat / 16).digitChar :: (c.toNat % 16).digitChar :: cs) = _
    rw [stringFrom, hex4?_toNat h8]
    simp only
    rw [if_neg (by omega), if_neg (by omega), Char.ofNat_toNat]
  · show stringFrom read (c :: cs) = _
    rw [stringFrom, if_neg h8]
    · exact fun hquote => absurd hquote h1
    all_goals
      intros
      contradiction

theorem string_quote (k : String) : string (k.toList.flatMap escape ++ '"' :: rest) = .ok (k, rest) := by
  have hfrom : ∀ (cs read : List Char),
      stringFrom read (cs.flatMap escape ++ '"' :: rest) = .ok (String.ofList (read.reverse ++ cs), rest) := by
    intro cs
    induction cs with
    | nil =>
      intro read
      rw [List.append_nil]
      rfl
    | cons c cs ih =>
      intro read
      rw [List.flatMap_cons, List.append_assoc, stringFrom_escape, ih, List.reverse_cons, List.append_assoc,
        List.singleton_append]
  rw [string, hfrom, List.reverse_nil, List.nil_append, String.ofList_toList]

/-! ### Numerals -/

theorem digits_append (early : Fault) (hds : Text.IsDigits ds) (hrest : Ends rest) :
    digits early (ds ++ rest) = .ok (ds, rest) := by
  have hhead : rest.dropWhile Char.isDigit = rest ∧ rest.takeWhile Char.isDigit = [] := by
    cases rest with
    | nil => exact ⟨rfl, rfl⟩
    | cons c rest =>
      have hc : c.isDigit = false := by rcases hrest c rfl with rfl | rfl <;> rfl
      simp [hc]
  have htake : (ds ++ rest).takeWhile Char.isDigit = ds := by
    rw [List.takeWhile_append_of_pos hds.2, hhead.2, List.append_nil]
  have hdrop : (ds ++ rest).dropWhile Char.isDigit = rest := by
    rw [List.dropWhile_append_of_pos hds.2, hhead.1]
  cases ds with
  | nil => exact absurd rfl hds.1
  | cons c ds =>
    show (if c.isDigit then _ else _ : Reader (List Char)) (c :: ds ++ rest) = _
    rw [if_pos (hds.2 c List.mem_cons_self)]
    show Except.ok ((c :: ds ++ rest).takeWhile Char.isDigit, (c :: ds ++ rest).dropWhile Char.isDigit) = _
    rw [htake, hdrop]

/-- What stands behind the sign of a whole number. -/
theorem numeralWith_append (early : Fault) (negative : Bool) (hds : Text.IsDigits ds)
    (hzero : 1 < ds.length → ds.head? ≠ some '0') (hrest : Ends rest) :
    numeralWith early ((if negative then ['-'] else []) ++ (ds ++ rest)) =
      .ok (⟨negative, Text.digitsValue ds, 0, true⟩, rest) := by
  have hlong : ¬ (1 < ds.length ∧ ds.head? = some '0') := fun h => hzero h.1 h.2
  have hpoint : rest.head? ≠ some '.' := hrest.head?_ne (by decide) (by decide)
  have hmark : rest.head? ≠ some 'e' ∧ rest.head? ≠ some 'E' :=
    ⟨hrest.head?_ne (by decide) (by decide), hrest.head?_ne (by decide) (by decide)⟩
  have hread := digits_append early hds hrest
  rw [numeralWith, get_bind]
  cases negative with
  | true =>
    rw [if_pos rfl, List.singleton_append, if_pos List.head?_cons, bind_ok skip_cons]
    refine (bind_ok hread).trans ?_
    simp [hlong, hpoint, hmark, get_bind]
    rfl
  | false =>
    have hhead : ds.head? ≠ some '-' := by
      intro hhead
      cases hds.2 '-' (List.mem_of_mem_head? hhead)
    have hsign : (ds ++ rest).head? ≠ some '-' := by rwa [List.head?_append_of_ne_nil _ hds.1]
    rw [if_neg Bool.false_ne_true, List.nil_append, if_neg hsign]
    refine (bind_ok hread).trans ?_
    simp [hlong, hpoint, hmark, get_bind, hhead, hds.1]
    rfl

theorem numeral_append (negative : Bool) {n : Nat} (hn : n < 2 ^ 64) (hrest : Ends rest) :
    numeral ((if negative then ['-'] else []) ++ ((toString n).toList ++ rest)) =
      .ok (⟨negative, n, 0, true⟩, rest) := by
  have hread := numeralWith_append .truncated negative (Text.isDigits_toString n) Text.head?_toString hrest
  rw [Text.digitsValue_toString] at hread
  have hfinite := Double.isInf_ofScientific hn
  have hfloat : (Numeral.float ⟨negative, n, 0, true⟩).isInf = false := by
    rw [Numeral.float]
    cases negative with
    | true => exact Double.isInf_neg hfinite
    | false => exact hfinite
  rw [numeral, bind_ok hread]
  simp only [hfloat]
  rfl

theorem numeral_toString {n : Int} (hlow : Int64.minValue.toInt ≤ n) (hhigh : n < UInt64.size)
    (hrest : Ends rest) :
    ∃ m : Numeral, numeral ((toString n).toList ++ rest) = .ok (m, rest) ∧ m.int? = some n := by
  have hmin : Int64.minValue.toInt = -2 ^ 63 := rfl
  have hmax : (UInt64.size : Int) = 2 ^ 64 := rfl
  cases n with
  | ofNat k =>
    refine ⟨_, numeral_append false (Int.ofNat_lt.mp hhigh) hrest, ?_⟩
    have hvalue : Int64.minValue.toInt ≤ (k : Int) ∧ (k : Int) < UInt64.size := ⟨hlow, hhigh⟩
    rw [Numeral.int?]
    simp only [Bool.false_eq_true, if_false, if_pos hvalue]
    rfl
  | negSucc k =>
    rw [Text.toList_toString_negSucc]
    refine ⟨_, numeral_append true (by omega) hrest, ?_⟩
    have hvalue : Int64.minValue.toInt ≤ -((k + 1 : Nat) : Int) ∧ -((k + 1 : Nat) : Int) < UInt64.size := by
      omega
    rw [Numeral.int?]
    simp only [if_true, if_pos hvalue]
    rfl

/-! ### Values -/

/-- `r` makes `a` of the text of `v`. -/
def Reads (r : Reader α) (v : Json) (a : α) : Prop :=
  ∀ level gap rest, Blank gap → Ends rest → r (gap ++ (prettyChars level v ++ rest)) = .ok (a, rest)

theorem isSpace_eq_false (hc : c = '-' ∨ c.isDigit) : isSpace c = false := by
  by_contra hspace
  simp only [isSpace, Bool.not_eq_false, Bool.or_eq_true, decide_eq_true_eq] at hspace
  rcases hspace with ((rfl | rfl) | rfl) | rfl <;> revert hc <;> decide

theorem reads_integer {low high n : Int} (hlow : low ≤ n) (hhigh : n ≤ high)
    (hmin : Int64.minValue.toInt ≤ low) (hmax : high < UInt64.size) :
    Reads (integer low high) (.int n) n := by
  intro level gap rest hgap hrest
  obtain ⟨c, cs, hcons, hc⟩ := Text.toList_toString_eq_cons n
  obtain ⟨m, hm, hint⟩ := numeral_toString (by omega) (by omega) hrest (n := n)
  show integer low high (gap ++ ((toString n).toList ++ rest)) = _
  rw [hcons] at hm ⊢
  rw [integer, List.cons_append, bind_ok (next?_append hgap (isSpace_eq_false hc))]
  simp only
  rw [if_pos (by simpa using hc), ← List.cons_append, bind_ok hm]
  simp only [hint]
  rw [if_pos ⟨hlow, hhigh⟩]
  rfl

theorem reads_null : Reads (optional r) .null none := by
  intro level gap rest hgap hrest
  show optional r (gap ++ 'n' :: 'u' :: 'l' :: 'l' :: rest) = _
  rw [optional, bind_ok (next?_append hgap rfl)]
  rfl

theorem Reads.optional {ms : List (String × Json)} (h : Reads r (.obj ms) a) :
    Reads (optional r) (.obj ms) (some a) := by
  intro level gap rest hgap hrest
  obtain ⟨body, hbody⟩ : ∃ body, prettyChars level (.obj ms) = '{' :: body := by
    cases ms with
    | nil => exact ⟨_, rfl⟩
    | cons m ms => exact ⟨_, rfl⟩
  have hread := h level [] rest .nil hrest
  rw [hbody] at hread ⊢
  rw [Json.Reader.optional, List.cons_append, bind_ok (next?_append hgap rfl)]
  exact map_ok hread

/-- `r` reads a colon and the text of `v` behind it, and gives `a`. -/
def ReadsBehind (r : Reader α) (v : Json) (a : α) : Prop :=
  ∀ level rest, Ends rest → r (':' :: ' ' :: (prettyChars level v ++ rest)) = .ok (a, rest)

theorem Reads.once (h : Reads r v a) : ReadsBehind (once none r) v (some a) := by
  intro level rest hrest
  have hcolon : colon (':' :: ' ' :: (prettyChars level v ++ rest)) =
      .ok ((), ' ' :: (prettyChars level v ++ rest)) := rfl
  have hgap : Blank [' '] := by
    rintro c (_ | ⟨_, ⟨⟩⟩)
    rfl
  rw [Json.Reader.once]
  refine (bind_ok hcolon).trans ?_
  exact map_ok (h level [' '] rest hgap hrest)

theorem ReadsBehind.bind_pure {f : α → β} (h : ReadsBehind r v a) :
    ReadsBehind (r >>= fun a => pure (f a)) v (f a) := by
  intro level rest hrest
  rw [bind_ok (h level rest hrest)]
  rfl

/-! ### Objects -/

/-- How `member` takes what the members before have left, `s`, to what all members leave. -/
inductive Collects (member : σ → String → Reader σ) : σ → List (String × Json) → σ → Prop
  | nil {s} : Collects member s [] s
  | cons {s s' s'' k v ms} : ReadsBehind (member s k) v s' → Collects member s' ms s'' →
      Collects member s ((k, v) :: ms) s''

variable {member : σ → String → Reader σ} {s s' : σ} {ms : List (String × Json)}

theorem ends_prettyMembers (level level' : Nat) (ms : List (String × Json)) :
    Ends (prettyMembers level ms ++ (newline level' ++ rest)) := by
  cases ms with
  | nil => exact ends_newline level'
  | cons m ms => exact .comma

theorem length_le_prettyMembers (level : Nat) (ms : List (String × Json)) :
    ms.length ≤ (prettyMembers level ms).length := by
  induction ms with
  | nil => exact Nat.le_refl _
  | cons m ms ih =>
    obtain ⟨k, v⟩ := m
    rw [prettyMembers]
    simp only [List.length_cons, List.length_append]
    omega

theorem quote_append (k : String) : quote k ++ ds = '"' :: (k.toList.flatMap escape ++ '"' :: ds) := by
  rw [quote, List.cons_append, List.cons_append, List.append_assoc, List.singleton_append]

theorem nextItem_first (k : String) (hgap : Blank gap) :
    nextItem '}' true (gap ++ (quote k ++ ds)) = .ok (true, quote k ++ ds) := by
  rw [quote_append, nextItem, bind_ok (next?_append hgap rfl)]
  rfl

theorem nextItem_comma (k : String) (hgap : Blank gap) :
    nextItem '}' false (',' :: (gap ++ (quote k ++ ds))) = .ok (true, quote k ++ ds) := by
  rw [quote_append, nextItem, bind_ok (next?_cons rfl)]
  refine (bind_ok skip_cons).trans ?_
  refine (bind_ok (next?_append hgap rfl)).trans ?_
  rfl

theorem go_of_item {k : String} {first : Bool} (bound : Nat)
    (hnext : nextItem '}' first cs = .ok (true, quote k ++ ds))
    (hmember : member s k ds = .ok (s', rest)) :
    members.go string member (bound + 1) first s cs = members.go string member bound false s' rest := by
  rw [members.go, bind_ok hnext, quote_append]
  simp only [if_true]
  rw [bind_ok (next?_cons rfl)]
  simp only
  rw [bind_ok skip_cons, bind_ok (string_quote k), bind_ok hmember]

theorem go_of_end {first : Bool} (bound : Nat) (hgap : Blank gap) :
    members.go string member (bound + 1) first s (gap ++ '}' :: rest) = .ok (s, '}' :: rest) := by
  have hnext : nextItem '}' first (gap ++ '}' :: rest) = .ok (false, '}' :: rest) := by
    rw [nextItem, bind_ok (next?_append hgap rfl)]
    rfl
  rw [members.go, bind_ok hnext]
  rfl

/-- The members behind the first. -/
theorem Collects.go (h : Collects member s ms s') (level level' : Nat) {bound : Nat}
    (hbound : ms.length < bound) :
    members.go string member bound false s (prettyMembers level ms ++ (newline level' ++ '}' :: rest)) =
      .ok (s', '}' :: rest) := by
  induction h generalizing bound with
  | nil =>
    obtain ⟨bound, rfl⟩ := Nat.exists_eq_add_one_of_ne_zero (Nat.ne_of_gt hbound)
    exact go_of_end bound (blank_newline level')
  | @cons s s₁ s₂ k v ms hmember _ ih =>
    obtain ⟨bound, rfl⟩ := Nat.exists_eq_add_one_of_ne_zero (Nat.ne_of_gt (Nat.zero_lt_of_lt hbound))
    have htext : prettyMembers level ((k, v) :: ms) ++ (newline level' ++ '}' :: rest) =
        ',' :: (newline level ++ (quote k ++ (':' :: ' ' :: (prettyChars level v ++
          (prettyMembers level ms ++ (newline level' ++ '}' :: rest)))))) := by
      rw [prettyMembers]
      simp only [List.cons_append, List.append_assoc]
    rw [htext, go_of_item bound (nextItem_comma k (blank_newline level))
      (hmember level _ (ends_prettyMembers level level' ms))]
    exact ih (Nat.lt_of_succ_lt_succ hbound)

/-- An object is a brace and what its members are read from. -/
theorem Collects.object (h : Collects member s ms s') (level : Nat) (rest : List Char) :
    ∃ body, prettyChars level (.obj ms) ++ rest = '{' :: body ∧
      members string member s body = .ok (s', '}' :: rest) := by
  cases h with
  | nil =>
    refine ⟨'}' :: rest, rfl, ?_⟩
    rw [members, get_bind]
    exact go_of_end _ .nil
  | @cons _ s₁ _ k v ms hmember hms =>
    refine ⟨newline (level + 1) ++ (quote k ++ (':' :: ' ' :: (prettyChars (level + 1) v ++
      (prettyMembers (level + 1) ms ++ (newline level ++ '}' :: rest))))), ?_, ?_⟩
    · rw [prettyChars]
      simp only [List.cons_append, List.append_assoc, List.nil_append]
    · rw [members, get_bind, go_of_item _ (nextItem_first k (blank_newline (level + 1)))
        (hmember (level + 1) _ (ends_prettyMembers (level + 1) level ms))]
      refine hms.go (level + 1) level ?_
      have hlength := length_le_prettyMembers (level + 1) ms
      simp only [List.length_append, List.length_cons]
      omega

/-! ### Arrays -/

/-- The text of the value starts like an element of an array. -/
def Opens (v : Json) : Prop :=
  ∀ level, ∃ c cs, prettyChars level v = c :: cs ∧ isSpace c = false ∧ c ≠ ']'

theorem opens_int (n : Int) : Opens (.int n) := by
  intro level
  obtain ⟨c, cs, hcons, hc⟩ := Text.toList_toString_eq_cons n
  refine ⟨c, cs, hcons, isSpace_eq_false hc, ?_⟩
  rintro rfl
  rcases hc with hc | hc <;> cases hc

theorem opens_arr (vs : List Json) : Opens (.arr vs) := by
  intro level
  cases vs with
  | nil => exact ⟨'[', _, rfl, rfl, by decide⟩
  | cons v vs => exact ⟨'[', _, rfl, rfl, by decide⟩

variable {vs : List Json} {as : List α}

theorem ends_prettyItems (level level' : Nat) (vs : List Json) :
    Ends (prettyItems level vs ++ (newline level' ++ rest)) := by
  cases vs with
  | nil => exact ends_newline level'
  | cons v vs => exact .comma

theorem length_le_prettyItems (level : Nat) (vs : List Json) :
    vs.length ≤ (prettyItems level vs).length := by
  induction vs with
  | nil => exact Nat.le_refl _
  | cons v vs ih =>
    rw [prettyItems]
    simp only [List.length_cons, List.length_append]
    omega

theorem Opens.nextItem_first (hv : Opens v) (level : Nat) (hgap : Blank gap) :
    nextItem ']' true (gap ++ (prettyChars level v ++ ds)) = .ok (true, prettyChars level v ++ ds) := by
  obtain ⟨c, cs, hcons, hspace, hc⟩ := hv level
  rw [hcons, List.cons_append, nextItem, bind_ok (next?_append hgap hspace)]
  simp only [if_neg hc]
  rfl

theorem Opens.nextItem_comma (hv : Opens v) (level : Nat) (hgap : Blank gap) :
    nextItem ']' false (',' :: (gap ++ (prettyChars level v ++ ds))) =
      .ok (true, prettyChars level v ++ ds) := by
  obtain ⟨c, cs, hcons, hspace, hc⟩ := hv level
  rw [hcons, List.cons_append, nextItem, bind_ok (next?_cons rfl)]
  refine (bind_ok skip_cons).trans ?_
  refine (bind_ok (next?_append hgap hspace)).trans ?_
  simp only [if_neg hc]
  rfl

theorem elements_go_of_element {first : Bool} {level : Nat} (bound : Nat)
    (hnext : nextItem ']' first cs = .ok (true, prettyChars level v ++ ds)) (hr : Reads r v a)
    (hds : Ends ds) (hgo : elements.go r bound false ds = .ok (as, rest)) :
    elements.go r (bound + 1) first cs = .ok (a :: as, rest) := by
  have hread := hr level [] ds .nil hds
  rw [List.nil_append] at hread
  have hfirst : element? r first cs = .ok (some a, ds) := by
    rw [element?, bind_ok hnext]
    exact map_ok hread
  rw [elements.go, bind_ok hfirst]
  exact bind_ok hgo

theorem elements_go_of_end {first : Bool} (bound : Nat) (hgap : Blank gap) :
    elements.go r (bound + 1) first (gap ++ ']' :: rest) = .ok ([], rest) := by
  have hnext : nextItem ']' first (gap ++ ']' :: rest) = .ok (false, ']' :: rest) := by
    rw [nextItem, bind_ok (next?_append hgap rfl)]
    rfl
  have hnone : element? r first (gap ++ ']' :: rest) = .ok (none, ']' :: rest) := by
    rw [element?, bind_ok hnext]
    rfl
  rw [elements.go, bind_ok hnone]
  exact bind_ok (close_cons rfl)

/-- The elements behind the first. -/
theorem elements_go (h : List.Forall₂ (fun v a => Opens v ∧ Reads r v a) vs as) (level level' : Nat)
    {bound : Nat} (hbound : vs.length < bound) :
    elements.go r bound false (prettyItems level vs ++ (newline level' ++ ']' :: rest)) =
      .ok (as, rest) := by
  induction h generalizing bound with
  | nil =>
    obtain ⟨bound, rfl⟩ := Nat.exists_eq_add_one_of_ne_zero (Nat.ne_of_gt hbound)
    exact elements_go_of_end bound (blank_newline level')
  | @cons v a vs as hv _ ih =>
    obtain ⟨bound, rfl⟩ := Nat.exists_eq_add_one_of_ne_zero (Nat.ne_of_gt (Nat.zero_lt_of_lt hbound))
    have htext : prettyItems level (v :: vs) ++ (newline level' ++ ']' :: rest) =
        ',' :: (newline level ++ (prettyChars level v ++
          (prettyItems level vs ++ (newline level' ++ ']' :: rest)))) := by
      rw [prettyItems]
      simp only [List.cons_append, List.append_assoc]
    rw [htext]
    exact elements_go_of_element bound (hv.1.nextItem_comma level (blank_newline level)) hv.2
      (ends_prettyItems level level' vs) (ih (Nat.lt_of_succ_lt_succ hbound))

/-- An array is a bracket and what its elements are read from. -/
theorem elements_arr (h : List.Forall₂ (fun v a => Opens v ∧ Reads r v a) vs as) (level : Nat)
    (rest : List Char) : ∃ body, prettyChars level (.arr vs) ++ rest = '[' :: body ∧
      elements r body = .ok (as, rest) := by
  cases h with
  | nil =>
    refine ⟨']' :: rest, rfl, ?_⟩
    rw [elements, get_bind]
    exact elements_go_of_end _ .nil
  | @cons v a vs as hv hvs =>
    refine ⟨newline (level + 1) ++ (prettyChars (level + 1) v ++
      (prettyItems (level + 1) vs ++ (newline level ++ ']' :: rest))), ?_, ?_⟩
    · rw [prettyChars]
      simp only [List.cons_append, List.append_assoc, List.nil_append]
    · rw [elements, get_bind]
      refine elements_go_of_element _ (hv.1.nextItem_first (level + 1) (blank_newline (level + 1))) hv.2
        (ends_prettyItems (level + 1) level vs) (elements_go hvs (level + 1) level ?_)
      have hlength := length_le_prettyItems (level + 1) vs
      simp only [List.length_append, List.length_cons]
      omega

/-! ### Documents -/

theorem Reads.document (h : Reads r v a) : document r v.pretty = .ok a := by
  have hread := h 0 [] [] .nil .nil
  rw [List.nil_append, List.append_nil] at hread
  rw [Json.Reader.document, pretty, String.toList_ofList]
  show (r (prettyChars 0 v) >>= _) = _
  rw [hread]
  rfl

/-! ### Values that are made of what is read -/

theorem map_bind_throw {γ : Type} (f : α → β) (r : Reader γ) (e : Fault) :
    f <$> (do let _ ← r; throw e : Reader α) = (do let _ ← r; throw e : Reader β) := by
  funext cs
  show (r cs >>= fun _ => _) >>= _ = (r cs >>= fun _ => _)
  cases r cs <;> rfl

theorem map_refuse (f : α → β) : f <$> (refuse : Reader α) = refuse := by
  have hnext (k : Option Char → Reader α) (k' : Option Char → Reader β) (h : ∀ c, f <$> k c = k' c) :
      f <$> (next? >>= k) = next? >>= k' := by
    rw [map_bind]
    exact congrArg _ (funext h)
  refine hnext _ _ fun c => ?_
  split
  · rfl
  · exact map_bind_throw f _ _
  · exact map_bind_throw f _ _
  · exact map_bind_throw f _ _
  · exact map_bind_throw f _ _
  · rfl
  · rfl
  · split
    · exact map_bind_throw f _ _
    · rfl

theorem document_map (f : α → β) (r : Reader α) (text : String) :
    document (f <$> r) text = (document r text).map f := by
  show ((r text.toList >>= fun p => pure (f p.1, p.2)) >>= fun p => finish p.2 >>= fun _ => pure p.1) =
    ((r text.toList >>= fun p => finish p.2 >>= fun _ => pure p.1).map f)
  cases r text.toList with
  | error e => rfl
  | ok p =>
    show (finish p.2 >>= fun _ => pure (f p.1)) = (finish p.2 >>= fun _ => pure p.1).map f
    cases finish p.2 <;> rfl

end Json.Reader

end Labyrinth
