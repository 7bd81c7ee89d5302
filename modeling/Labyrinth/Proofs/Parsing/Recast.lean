import Labyrinth.Proofs.Parsing.Soundness
import Labyrinth.Proofs.Program.Moved

/-!
# Two runs of a reader

A `Sequel` puts other tokens in the place of the end of input, and moves what stands in front of them.
`Parser.Recast` compares the run of a reader in front of the end of input with that in front of the sequel:
they go the same way up to the end of input, and all the way if the sequel is an end of input itself. There is
one rule for each step that readers are made of.
-/

namespace Labyrinth

/-- Tokens that stand in the place of the end of input at `last`, and where the tokens in front of it go. -/
structure Sequel where
  last : Location
  place : Location → Location
  lexemes : List Lexeme
  scanned : Scanned lexemes

namespace Sequel

/-- Regular tokens and behind them the end of input at `E.last`. -/
inductive Before (E : Sequel) : List Lexeme → Prop
  | last : E.Before [⟨.endOfInput, E.last⟩]
  | cons {l ls} : l.token.Regular → E.Before ls → E.Before (l :: ls)

def swap (E : Sequel) (ls : List Lexeme) : List Lexeme :=
  ls.dropLast.map (Lexeme.move E.place) ++ E.lexemes

/-- The cursor at the same token with the sequel behind. -/
def extend (E : Sequel) (s : Cursor) : Cursor := { s with lexemes := E.swap s.lexemes }

/-- The sequel is the same end of input. -/
def Ends (E : Sequel) : Prop := E.lexemes = [⟨.endOfInput, E.place E.last⟩]

/-- The current token is not replaced. -/
def Inside (E : Sequel) (s : Cursor) : Prop := E.Ends ∨ s.token ≠ .endOfInput

variable {E : Sequel} {ls : List Lexeme} {l : Lexeme} {s : Cursor}

theorem Before.scanned (h : E.Before ls) : Scanned ls := by
  induction h with
  | last => exact .last
  | cons hl _ ih => exact .cons hl ih

theorem Before.ne_nil (h : E.Before ls) : ls ≠ [] := h.scanned.ne_nil

theorem swap_cons (h : E.Before ls) : E.swap (l :: ls) = l.move E.place :: E.swap ls := by
  rw [swap, List.dropLast_cons_of_ne_nil h.ne_nil]
  rfl

theorem exists_before (h : Scanned ls) : ∃ i, ∀ E : Sequel, E.last = i → E.Before ls := by
  induction h with
  | @last i => exact ⟨i, fun E hE => hE ▸ .last⟩
  | cons hl _ ih =>
    obtain ⟨i, ih⟩ := ih
    exact ⟨i, fun E hE => .cons hl (ih E hE)⟩

/-- With an end of input in the place of the other all tokens are moved. -/
theorem Before.swap_of_ends (h : E.Before ls) (hends : E.Ends) :
    E.swap ls = ls.map (Lexeme.move E.place) := by
  induction h with
  | last => exact hends
  | cons _ h ih => rw [swap_cons h, ih, List.map_cons]

theorem swap_ne_nil (E : Sequel) (ls : List Lexeme) : E.swap ls ≠ [] :=
  List.append_ne_nil_of_right_ne_nil _ E.scanned.ne_nil

theorem Before.length_swap (h : E.Before ls) : (E.swap ls).length + 1 = ls.length + E.lexemes.length := by
  have hpos := List.length_pos_iff.mpr h.ne_nil
  rw [swap, List.length_append, List.length_map, List.length_dropLast]
  omega

/-- The fewer tokens are left, the fewer are left with the sequel. -/
theorem Before.length_extend_lt {t : Cursor} (hs : E.Before s.lexemes) (ht : E.Before t.lexemes)
    (h : t.lexemes.length < s.lexemes.length) :
    (E.extend t).lexemes.length < (E.extend s).lexemes.length := by
  have hs' := hs.length_swap
  have ht' := ht.length_swap
  show (E.swap t.lexemes).length < (E.swap s.lexemes).length
  omega

/-- There is a token in front of the end of input, or the end of input is what is left. -/
theorem Before.cases_cursor (h : E.Before s.lexemes) : s.lexemes = [⟨.endOfInput, E.last⟩] ∨
    ∃ l ls, s.lexemes = l :: ls ∧ l.token.Regular ∧ E.Before ls := by
  generalize s.lexemes = ls at h
  cases h with
  | last => exact .inl rfl
  | cons hl h => exact .inr ⟨_, _, rfl, hl, h⟩

theorem token_ne_endOfInput (hs : s.lexemes = l :: ls) (hl : l.token.Regular) :
    s.token ≠ .endOfInput := by
  rw [Cursor.token_of_lexemes hs]
  intro he
  rw [he] at hl
  cases hl

theorem Before.advance (h : E.Before s.lexemes) : E.Before s.advance.lexemes := by
  rcases h.cases_cursor with hs | ⟨l, ls, hs, -, hls⟩
  · have hadvance : s.advance = s := by rw [Cursor.advance, hs]
    rwa [hadvance]
  · rw [Cursor.advance_of_lexemes hs hls.ne_nil]
    exact hls

theorem Before.length_advance (h : E.Before s.lexemes) (hne : s.token ≠ .endOfInput) :
    s.advance.lexemes.length + 1 = s.lexemes.length := by
  rcases h.cases_cursor with hs | ⟨l, ls, hs, -, hls⟩
  · exact absurd (Cursor.token_of_lexemes hs) hne
  · rw [Cursor.advance_of_lexemes hs hls.ne_nil, hs, List.length_cons]

/-- What is not replaced stays, but for its place. -/
theorem extend_of_inside (h : E.Before s.lexemes) (hin : E.Inside s) :
    (E.extend s).token = s.token ∧ (E.extend s).loc = E.place s.loc ∧
      (E.extend s).advance = E.extend s.advance := by
  rcases h.cases_cursor with hs | ⟨l, ls, hs, hl, hls⟩
  · have hends : E.Ends := hin.resolve_right fun hne => hne (Cursor.token_of_lexemes hs)
    have hext : (E.extend s).lexemes = [⟨.endOfInput, E.place E.last⟩] := by
      rw [extend, hs]
      exact hends
    have hadvance : s.advance = s := by rw [Cursor.advance, hs]
    refine ⟨?_, ?_, ?_⟩
    · rw [Cursor.token_of_lexemes hext, Cursor.token_of_lexemes hs]
    · rw [Cursor.loc_of_lexemes hext, Cursor.loc_of_lexemes hs]
    · rw [hadvance, Cursor.advance, hext]
  · have hext : (E.extend s).lexemes = l.move E.place :: E.swap ls := by
      rw [extend, hs, swap_cons hls]
    refine ⟨?_, ?_, ?_⟩
    · rw [Cursor.token_of_lexemes hext, Cursor.token_of_lexemes hs, Lexeme.move]
    · rw [Cursor.loc_of_lexemes hext, Cursor.loc_of_lexemes hs, Lexeme.move]
    · rw [Cursor.advance_of_lexemes hext (E.swap_ne_nil ls), Cursor.advance_of_lexemes hs hls.ne_nil]
      rfl

theorem nextToken_extend (h : E.Before s.lexemes) (hnext : E.Ends ∨ s.nextToken ≠ .endOfInput) :
    (E.extend s).nextToken = s.nextToken := by
  rcases h.cases_cursor with hs | ⟨l, ls, hs, hl, hls⟩
  · have hnone : s.nextToken = .endOfInput := by rw [Cursor.nextToken, hs]
    have hends : E.Ends := hnext.resolve_right fun hne => hne hnone
    have hext : (E.extend s).lexemes = [⟨.endOfInput, E.place E.last⟩] := by
      rw [extend, hs]
      exact hends
    rw [hnone, Cursor.nextToken, hext]
  · cases hls with
    | last =>
      have hnone : s.nextToken = .endOfInput := Cursor.nextToken_of_lexemes hs
      have hends : E.Ends := hnext.resolve_right fun hne => hne hnone
      have hext : (E.extend s).lexemes = [l.move E.place, ⟨.endOfInput, E.place E.last⟩] := by
        rw [extend, hs, swap_cons .last]
        exact congrArg _ hends
      rw [hnone, Cursor.nextToken_of_lexemes hext]
    | @cons l' ls hl' hls =>
      have hext : (E.extend s).lexemes = l.move E.place :: l'.move E.place :: E.swap ls := by
        rw [extend, hs, swap_cons (.cons hl' hls), swap_cons hls]
      rw [Cursor.nextToken_of_lexemes hext, Cursor.nextToken_of_lexemes hs, Lexeme.move]

/-- A cursor that looks like `s` from the current token, and is the one in front of the sequel if the token
is not replaced for sure. -/
structure Alike (E : Sequel) (s s' : Cursor) : Prop where
  token : s'.token = s.token
  loc : s'.loc = E.place s.loc
  eq : s.token ≠ .endOfInput → s' = E.extend s

end Sequel

open Grammar Sequel

namespace Parser

variable {E : Sequel} {α β γ δ : Type} {f : α → β} {g : γ → δ} {p q m : Prop} {s : Cursor}

/-- The reader `r'` does in front of the sequel what `r` does in front of the end of input, if the token behind
what is read is not replaced or if `q` holds. And then the current token is not replaced if `p` does not hold.
An error that `r` has at some place `r'` has there too if the sequel is an end of input. -/
def Recast (E : Sequel) (f : α → β) (p q : Prop) (r : Parser α) (r' : Parser β) (s : Cursor) : Prop :=
  r.Meets s (fun a t => E.Before t.lexemes ∧
    (q ∨ E.Inside t → (p ∨ E.Inside s) ∧ r' (E.extend s) = .ok (f a) (E.extend t)))
    fun e => E.Ends → ∃ t, r' (E.extend s) = .error (e.move E.place) t

/-- Closes the level however the reading ends. -/
def closing (r : Parser α) : Parser α := fun s =>
  match r s with
  | .ok a t => .ok a (leave t)
  | .error e t => .error e (leave t)

namespace Recast

theorem of_run {r : Parser α} {r' : Parser β} {a : α} {t : Cursor} (hr : r s = .ok a t)
    (ht : E.Before t.lexemes)
    (h : q ∨ E.Inside t → (p ∨ E.Inside s) ∧ r' (E.extend s) = .ok (f a) (E.extend t)) :
    Recast E f p q r r' s := by
  rw [Recast, Meets, hr]
  exact ⟨ht, h⟩

theorem of_ok {r : Parser α} {r' : Parser β} {a : α} {t : Cursor} (hr : r s = .ok a t)
    (hr' : r' (E.extend s) = .ok (f a) (E.extend t)) (ht : E.Before t.lexemes)
    (hin : E.Inside t → E.Inside s) : Recast E f p p r r' s :=
  .of_run hr ht fun h => ⟨h.imp_right hin, hr'⟩

theorem of_error {r : Parser α} {r' : Parser β} {e : SyntaxError} {t : Cursor} (hr : r s = .error e t)
    (hr' : E.Ends → ∃ t, r' (E.extend s) = .error (e.move E.place) t) : Recast E f p q r r' s := by
  rw [Recast, Meets, hr]
  exact hr'

theorem error {r : Parser α} {r' : Parser β} {e : SyntaxError} {t : Cursor} (h : Recast E f p q r r' s)
    (hr : r s = .error e t) : E.Ends → ∃ t, r' (E.extend s) = .error (e.move E.place) t := by
  rw [Recast, Meets, hr] at h
  exact h

theorem of_stuck {r : Parser α} {r' : Parser β} (h : r.Meets s (fun _ _ => False) fun _ => True)
    (hends : ¬E.Ends) : Recast E f p q r r' s :=
  Meets.mono h nofun fun _ _ h => absurd h hends

theorem mono {p' q' : Prop} {r : Parser α} {r' : Parser β} (h : Recast E f p q r r' s) (hp : p → p')
    (hq : q' → q) : Recast E f p' q' r r' s := by
  refine Meets.mono h ?_ fun _ => id
  rintro a t ⟨ht, h⟩
  refine ⟨ht, fun hin => ?_⟩
  obtain ⟨hp', hr'⟩ := h (hin.imp_left hq)
  exact ⟨hp'.imp_left hp, hr'⟩

theorem start {r : Parser α} {r' : Parser β} (h : Recast E f False q r r' s) : Recast E f p q r r' s :=
  h.mono False.elim id

theorem stop {r : Parser α} {r' : Parser β} (h : Recast E f p True r r' s) : Recast E f p q r r' s :=
  h.mono id fun _ => trivial

theorem pure {a : α} {b : β} (hs : E.Before s.lexemes) (hb : f a = b) :
    Recast E f p p (pure a) (pure b) s :=
  ⟨hs, fun h => ⟨h, congrArg (EStateM.Result.ok · (E.extend s)) hb.symm⟩⟩

/-- Two steps with a fact about the first of them. -/
theorem bind_of_meets {r : Parser α} {r' : Parser β} {k : α → Parser γ} {k' : β → Parser δ}
    {Q : α → Cursor → Prop} (hr : Recast E f p m r r' s) (hQ : r.Meets s Q fun _ => True)
    (hk : ∀ a t, E.Before t.lexemes → Q a t → Recast E g m q (k a) (k' (f a)) t) :
    Recast E g p q (r >>= k) (r' >>= k') s := by
  cases hfirst : r s with
  | ok a t =>
    obtain ⟨ht, hr⟩ := Meets.ok hr hfirst
    have hk := hk a t ht (hQ.ok hfirst)
    cases hsecond : k a t with
    | ok c u =>
      obtain ⟨hu, hk⟩ := Meets.ok hk hsecond
      refine .of_run ((bind_of_ok hfirst).trans hsecond) hu fun hin => ?_
      obtain ⟨hm, hk⟩ := hk hin
      obtain ⟨hp, hr⟩ := hr hm
      exact ⟨hp, (bind_of_ok hr).trans hk⟩
    | error e u =>
      refine .of_error ((bind_of_ok hfirst).trans hsecond) fun hends => ?_
      obtain ⟨v, hk⟩ := hk.error hsecond hends
      obtain ⟨-, hr⟩ := hr (.inr (.inl hends))
      exact ⟨v, (bind_of_ok hr).trans hk⟩
  | error e t =>
    refine .of_error (bind_of_error hfirst) fun hends => ?_
    obtain ⟨v, hr⟩ := hr.error hfirst hends
    exact ⟨v, bind_of_error hr⟩

theorem bind {r : Parser α} {r' : Parser β} {k : α → Parser γ} {k' : β → Parser δ}
    (hr : Recast E f p m r r' s)
    (hk : ∀ a t, E.Before t.lexemes → Recast E g m q (k a) (k' (f a)) t) :
    Recast E g p q (r >>= k) (r' >>= k') s :=
  bind_of_meets (Q := fun _ _ => True) hr (by unfold Meets; split <;> trivial) fun a t ht _ => hk a t ht

theorem map {r : Parser α} {r' : Parser β} {k : α → γ} {k' : β → δ} (h : Recast E f p q r r' s)
    (hk : ∀ a, g (k a) = k' (f a)) : Recast E g p q (k <$> r) (k' <$> r') s := by
  have hbind : Recast E g p q (r >>= fun a => Pure.pure (k a)) (r' >>= fun b => Pure.pure (k' b)) s :=
    h.bind fun a t ht => .pure ht (hk a)
  simpa only [bind_pure_comp] using hbind

/-- A reader that looks at the current token. -/
theorem look {k : Cursor → Parser α} {k' : Cursor → Parser β} (hs : E.Before s.lexemes)
    (h : ∀ s', E.Alike s s' → Recast E f False q (k s) (k' s') s) :
    Recast E f p q (get >>= k) (get >>= k') s := by
  by_cases hin : E.Inside s
  · obtain ⟨htoken, hloc, -⟩ := extend_of_inside hs hin
    exact .start (h (E.extend s) ⟨htoken, hloc, fun _ => rfl⟩)
  · -- some cursor is alike, so the reader does not end where the next token is not replaced either
    have hend : s.token = .endOfInput := by
      by_contra hne
      exact hin (.inr hne)
    have h := h { lexemes := [⟨s.token, E.place s.loc⟩] } ⟨rfl, rfl, fun hne => absurd hend hne⟩
    refine Meets.mono (s := s) (r := k s) h ?_ ?_
    · rintro a t ⟨ht, h⟩
      exact ⟨ht, fun hq => ((h hq).1.elim id hin).elim⟩
    · exact fun _ _ hends => (hin (.inl hends)).elim

theorem get {k : Cursor → Parser α} {k' : Cursor → Parser β}
    (h : Recast E f p q (k s) (k' (E.extend s)) s) : Recast E f p q (get >>= k) (get >>= k') s := h

theorem advance {k : Unit → Parser α} {k' : Unit → Parser β} (hs : E.Before s.lexemes)
    (hne : s.token ≠ .endOfInput) (h : Recast E f True q (k ()) (k' ()) s.advance) :
    Recast E f p q (advance >>= k) (advance >>= k') s := by
  obtain ⟨-, -, hadvance⟩ := extend_of_inside hs (.inr hne)
  have hk : (Parser.advance >>= k') (E.extend s) = k' () (E.extend s.advance) :=
    congrArg (k' ()) hadvance
  refine Meets.advance (Meets.mono (r := k ()) h ?_ ?_)
  · rintro a t ⟨ht, h⟩
    exact ⟨ht, fun hq => ⟨.inr (.inr hne), hk.trans (h hq).2⟩⟩
  · rintro e he hends
    obtain ⟨t, he⟩ := he hends
    exact ⟨t, hk.trans he⟩

/-- The counters stay what they are. -/
theorem count {c : Cursor → Cursor} (hs : E.Before s.lexemes) (hc : (c s).lexemes = s.lexemes)
    (hext : c (E.extend s) = E.extend (c s)) : Recast E id p p (modify c) (modify c) s := by
  have htoken : (c s).token = s.token := by rw [Cursor.token, hc, Cursor.token]
  refine ⟨hc.symm ▸ hs, fun h => ⟨h.imp_right fun hin => hin.imp_right fun hne => htoken ▸ hne, ?_⟩⟩
  show EStateM.Result.ok PUnit.unit (c (E.extend s)) = _
  rw [hext]

theorem set {t : Cursor} {k : PUnit → Parser α} {k' : PUnit → Parser β} (hl : t.lexemes = s.lexemes)
    (h : Recast E f p q (k ⟨⟩) (k' ⟨⟩) t) : Recast E f p q (set t >>= k) (set (E.extend t) >>= k') s := by
  have htoken : t.token = s.token := by rw [Cursor.token, hl, Cursor.token]
  refine Meets.set (Meets.mono (r := k ⟨⟩) h ?_ fun _ => id)
  rintro a u ⟨hu, h⟩
  refine ⟨hu, fun hq => ?_⟩
  obtain ⟨hp, hr'⟩ := h hq
  exact ⟨hp.imp_right fun hin => hin.imp_right fun hne => htoken ▸ hne, hr'⟩

theorem throw {e e' : SyntaxError} (he : e' = e.move E.place) :
    Recast E f p q (throw e) (throw e') s :=
  fun _ => ⟨E.extend s, by rw [he]; rfl⟩

theorem fail (hs : E.Before s.lexemes) (problem : SyntaxProblem) :
    Recast E f p q (fail problem) (fail problem) s := by
  intro hends
  obtain ⟨-, hloc, -⟩ := extend_of_inside hs (.inl hends)
  have hfail : (Parser.fail problem : Parser β) (E.extend s) =
      .error ⟨problem, (E.extend s).loc⟩ (E.extend s) := rfl
  refine ⟨E.extend s, ?_⟩
  rw [hfail, hloc]
  rfl

theorem unexpected (hs : E.Before s.lexemes) (wanted : Expected) :
    Recast E f p q (unexpected wanted) (unexpected wanted) s := by
  intro hends
  obtain ⟨htoken, hloc, -⟩ := extend_of_inside hs (.inl hends)
  have hfail : (Parser.unexpected wanted : Parser β) (E.extend s) =
      .error ⟨.unexpected wanted (E.extend s).token, (E.extend s).loc⟩ (E.extend s) := rfl
  refine ⟨E.extend s, ?_⟩
  rw [hfail, htoken, hloc]
  rfl

theorem expect {t : Token} (hs : E.Before s.lexemes) (hne : t ≠ .endOfInput) :
    Recast E id p True (expect t) (expect t) s := by
  refine .look hs fun s' hs' => ?_
  rw [hs'.token]
  split
  · next ht =>
    have hdone : Recast E id True True (Pure.pure () : Parser Unit) (Pure.pure ()) s.advance :=
      .pure hs.advance rfl
    simpa using Recast.advance (p := False) hs (ht ▸ hne) hdone
  · exact .unexpected hs _

theorem expectMark (hs : E.Before s.lexemes) (mark : Punctuation) :
    Recast E id p True (expectMark mark) (expectMark mark) s :=
  .expect hs nofun

theorem expectName (hs : E.Before s.lexemes) (wanted : Expected) :
    Recast E id p True (expectName wanted) (expectName wanted) s := by
  refine .look hs fun s' hs' => ?_
  rw [hs'.token]
  split
  · next ht => exact .advance hs (ht ▸ nofun) (.pure hs.advance rfl)
  · exact .unexpected hs _

theorem expectType (hs : E.Before s.lexemes) :
    Recast E id p True expectType expectType s := by
  refine .look hs fun s' hs' => ?_
  rw [hs'.token]
  split
  · next ht => exact .advance hs (ht ▸ nofun) (.pure hs.advance rfl)
  · exact .unexpected hs _

theorem enter (hs : E.Before s.lexemes) : Recast E id p p enter enter s := by
  by_cases h : maxNesting ≤ s.depth ∨ maxHeight ≤ s.height
  · refine .of_error (enter_of_le h) fun hends => ⟨E.extend s, ?_⟩
    rw [enter_of_le (s := E.extend s) h, (extend_of_inside hs (.inl hends)).2.1]
    rfl
  · exact .of_ok (enter_of_lt h) (enter_of_lt (s := E.extend s) h) hs id

theorem closing {r : Parser α} {r' : Parser β} (h : Recast E f p q r r' s) :
    Recast E f p q (closing r) (closing r') s := by
  cases hr : r s with
  | ok a t =>
    obtain ⟨ht, h⟩ := Meets.ok h hr
    refine .of_run (t := leave t) (by rw [Parser.closing, hr]) ht fun hq => ?_
    obtain ⟨hp, hr'⟩ := h hq
    exact ⟨hp, by rw [Parser.closing, hr']; rfl⟩
  | error e t =>
    refine .of_error (t := leave t) (by rw [Parser.closing, hr]) fun hends => ?_
    obtain ⟨u, hr'⟩ := h.error hr hends
    exact ⟨leave u, by rw [Parser.closing, hr']⟩

theorem nested {r : Parser α} {r' : Parser β} (hs : E.Before s.lexemes)
    (h : ∀ t, E.Before t.lexemes → Recast E f p q r r' t) :
    Recast E f p q (nested r) (nested r') s :=
  bind (.enter hs) fun _ t ht => .closing (h t ht)

end Recast

end Parser

end Labyrinth
