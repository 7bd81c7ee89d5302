import Labyrinth.Proofs.Parsing.Recast

/-!
# What a reader has seen

A reader that ends in front of a token has not looked behind it: with other tokens there it does the same. And
if it fails since the token is none that it expects, then what stands in front of that token has a property that
the reader is known by (`Parser.Pinpoints`). There is one rule for each step that readers are made of.
-/

namespace Labyrinth

variable {ts left right : List Lexeme} {l : Lexeme}

/-- Behind a place other tokens may stand, which does not change the token at a place in front of it. -/
theorem exists_cons_of_append {l' : Lexeme} {left' : List Lexeme} (h : ts ++ l :: left = l' :: left')
    (right : List Lexeme) : ∃ right', ts ++ l :: right = l' :: right' := by
  cases ts with
  | nil =>
    cases h
    exact ⟨right, rfl⟩
  | cons x ts =>
    cases h
    exact ⟨ts ++ l :: right, rfl⟩

namespace Cursor

variable {s : Cursor}

/-- The same token at the same place and at the same height. -/
structure Looks (s s' : Cursor) : Prop where
  token : s'.token = s.token
  loc : s'.loc = s.loc
  height : s'.height = s.height

theorem looks_of_append (hs : s.lexemes = ts ++ l :: left) (right : List Lexeme) :
    s.Looks { s with lexemes := ts ++ l :: right } := by
  obtain ⟨x, us, hx⟩ : ∃ x us, s.lexemes = x :: us := List.exists_cons_of_ne_nil (by simp [hs])
  obtain ⟨us', he⟩ := exists_cons_of_append (hs.symm.trans hx) right
  have hs' : ({ s with lexemes := ts ++ l :: right } : Cursor).lexemes = x :: us' := he
  refine ⟨?_, ?_, rfl⟩
  · rw [token_of_lexemes hs', token_of_lexemes hx]
  · rw [loc_of_lexemes hs', loc_of_lexemes hx]

theorem token_eq_nextToken {t : Cursor} (hs : s.lexemes = l :: t.lexemes) (ht : t.lexemes ≠ []) :
    t.token = s.nextToken := by
  obtain ⟨x, xs, hx⟩ := List.exists_cons_of_ne_nil ht
  rw [hx] at hs
  rw [token_of_lexemes hx, nextToken_of_lexemes hs]

/-- Where the current token is taken, the one behind it is seen. -/
theorem nextToken_of_append (hs : s.lexemes = ts ++ l :: left) (hts : ts ≠ []) (right : List Lexeme) :
    nextToken { s with lexemes := ts ++ l :: right } = s.nextToken := by
  obtain ⟨x, us, rfl⟩ := List.exists_cons_of_ne_nil hts
  cases us with
  | nil => rw [nextToken_of_lexemes (s := s) hs, nextToken_of_lexemes rfl]
  | cons y us => rw [nextToken_of_lexemes (s := s) hs, nextToken_of_lexemes rfl]

end Cursor

namespace Parser

variable {α β : Type} {s : Cursor} {V V' : List Lexeme → Prop}

/-- The reader does the same with other tokens behind the one that it ends at. If it fails at a token that it
does not expect, then `V` holds of the tokens in front of that. -/
def Pinpoints (r : Parser α) (s : Cursor) (V : List Lexeme → Prop) : Prop :=
  r.Meets s
    (fun a t => ∃ ts l left, s.lexemes = ts ++ l :: left ∧ t.lexemes = l :: left ∧
      ∀ right, r { s with lexemes := ts ++ l :: right } = .ok a { t with lexemes := l :: right })
    fun e => ∀ wanted got, e.problem = .unexpected wanted got →
      ∃ ts l left, s.lexemes = ts ++ l :: left ∧ e = ⟨.unexpected wanted l.token, l.loc⟩ ∧ V ts ∧
        ∀ right, ∃ t, r { s with lexemes := ts ++ l :: right } = .error e t

/-- Whatever stands behind `l`, the reader stays in front of it. -/
def Stays (r : Parser α) (s : Cursor) (l : Lexeme) : Prop :=
  ∀ right, r.Meets { s with lexemes := l :: right } (fun _ t => t.lexemes = l :: right)
    fun e => ∃ wanted got, e.problem = .unexpected wanted got

namespace Pinpoints

theorem of_ok {r : Parser α} {a : α} {t : Cursor} (hr : r s = .ok a t)
    (h : ∃ ts l left, s.lexemes = ts ++ l :: left ∧ t.lexemes = l :: left ∧
      ∀ right, r { s with lexemes := ts ++ l :: right } = .ok a { t with lexemes := l :: right }) :
    r.Pinpoints s V := by
  rw [Pinpoints, Meets, hr]
  exact h

theorem of_error {r : Parser α} {e : SyntaxError} {t : Cursor} (hr : r s = .error e t)
    (h : ∀ wanted got, e.problem = .unexpected wanted got →
      ∃ ts l left, s.lexemes = ts ++ l :: left ∧ e = ⟨.unexpected wanted l.token, l.loc⟩ ∧ V ts ∧
        ∀ right, ∃ t, r { s with lexemes := ts ++ l :: right } = .error e t) : r.Pinpoints s V := by
  rw [Pinpoints, Meets, hr]
  exact h

theorem error {r : Parser α} {e : SyntaxError} {t : Cursor} (h : r.Pinpoints s V) (hr : r s = .error e t) :
    ∀ wanted got, e.problem = .unexpected wanted got →
      ∃ ts l left, s.lexemes = ts ++ l :: left ∧ e = ⟨.unexpected wanted l.token, l.loc⟩ ∧ V ts ∧
        ∀ right, ∃ t, r { s with lexemes := ts ++ l :: right } = .error e t := by
  rw [Pinpoints, Meets, hr] at h
  exact h

theorem mono {r : Parser α} (h : r.Pinpoints s V) (hV : ∀ ts, V ts → V' ts) : r.Pinpoints s V' := by
  refine Meets.mono h (fun _ _ => id) fun e he wanted got hp => ?_
  obtain ⟨ts, l, left, hs, heq, hv, hright⟩ := he wanted got hp
  exact ⟨ts, l, left, hs, heq, hV ts hv, hright⟩

theorem pure {a : α} (hs : s.lexemes ≠ []) : (pure a : Parser α).Pinpoints s V := by
  obtain ⟨l, left, hl⟩ := List.exists_cons_of_ne_nil hs
  exact ⟨[], l, left, hl, hl, fun right => rfl⟩

/-- An error that is not about a token. -/
theorem throw {e : SyntaxError} (he : ∀ wanted got, e.problem ≠ .unexpected wanted got) :
    (throw e : Parser α).Pinpoints s V :=
  fun wanted got hp => absurd hp (he wanted got)

theorem fail {problem : SyntaxProblem} (he : ∀ wanted got, problem ≠ .unexpected wanted got) :
    (fail problem : Parser α).Pinpoints s V :=
  fun wanted got hp => absurd hp (he wanted got)

theorem unexpected {wanted : Expected} (hs : Scanned s.lexemes) (hV : V []) :
    (unexpected wanted : Parser α).Pinpoints s V := by
  obtain ⟨l, left, hl⟩ := List.exists_cons_of_ne_nil hs.ne_nil
  rintro _ _ ⟨⟩
  refine ⟨[], l, left, hl, ?_, hV, fun right => ⟨{ s with lexemes := l :: right }, ?_⟩⟩
  · rw [Cursor.token_of_lexemes hl, Cursor.loc_of_lexemes hl]
  · rw [Cursor.token_of_lexemes hl, Cursor.loc_of_lexemes hl]
    rfl

/-- Tokens are taken first, and what is known of those in front of an error includes these. -/
theorem bind_of_meets {r : Parser α} {k : α → Parser β} {Q : List Lexeme → α → Cursor → Prop}
    (hr : r.Pinpoints s V)
    (hQ : r.Meets s (fun a t => ∃ ts, s.lexemes = ts ++ t.lexemes ∧ Q ts a t) fun _ => True)
    (hk : ∀ ts a t, Q ts a t → (k a).Pinpoints t fun us => V (ts ++ us)) : (r >>= k).Pinpoints s V := by
  cases hfirst : r s with
  | error e t =>
    refine of_error (bind_of_error hfirst) fun wanted got hp => ?_
    obtain ⟨ts, l, left, hs, heq, hv, hright⟩ := hr.error hfirst wanted got hp
    refine ⟨ts, l, left, hs, heq, hv, fun right => ?_⟩
    obtain ⟨u, hu⟩ := hright right
    exact ⟨u, bind_of_error hu⟩
  | ok a t =>
    obtain ⟨ts, l, left, hs, ht, hright⟩ := Meets.ok hr hfirst
    obtain ⟨ts', hts', ha⟩ := hQ.ok hfirst
    obtain rfl : ts' = ts := List.append_cancel_right (hts'.symm.trans (hs.trans (by rw [ht])))
    -- what stands behind the tokens that the second reader has seen stands behind `l` as well
    have hsecond {us : List Lexeme} {l' : Lexeme} {left' : List Lexeme} (hu : t.lexemes = us ++ l' :: left')
        (right : List Lexeme) : (r >>= k) { s with lexemes := (ts' ++ us) ++ l' :: right } =
          k a { t with lexemes := us ++ l' :: right } := by
      obtain ⟨right', he⟩ := exists_cons_of_append (hu.symm.trans ht) right
      rw [List.append_assoc, he]
      exact bind_of_ok (hright right')
    have hk := hk ts' a t ha
    cases hlast : k a t with
    | error e u =>
      refine of_error ((bind_of_ok hfirst).trans hlast) fun wanted got hp => ?_
      obtain ⟨us, l', left', hu, heq, hv, hright'⟩ := hk.error hlast wanted got hp
      refine ⟨ts' ++ us, l', left', by rw [hts', hu, List.append_assoc], heq, hv, fun right => ?_⟩
      rw [hsecond hu]
      exact hright' right
    | ok b u =>
      obtain ⟨us, l', left', hu, hu', hright'⟩ := Meets.ok hk hlast
      refine of_ok ((bind_of_ok hfirst).trans hlast)
        ⟨ts' ++ us, l', left', by rw [hts', hu, List.append_assoc], hu', fun right => ?_⟩
      rw [hsecond hu]
      exact hright' right

theorem bind {r : Parser α} {k : α → Parser β} {D : List Lexeme → α → Prop} (hr : r.Pinpoints s V')
    (hsound : r.Sound s D) (hV : ∀ ts, V' ts → V ts)
    (hk : ∀ ts a t, Taken s.lexemes ts t.lexemes → D ts a → (k a).Pinpoints t fun us => V (ts ++ us)) :
    (r >>= k).Pinpoints s V := by
  refine bind_of_meets (Q := fun ts a t => Taken s.lexemes ts t.lexemes ∧ D ts a) (hr.mono hV) ?_
    fun ts a t ⟨hts, ha⟩ => hk ts a t hts ha
  refine Meets.mono hsound ?_ fun _ => id
  rintro a t ⟨ts, hts, ha⟩
  exact ⟨ts, hts.eq, hts, ha⟩

/-- One token is taken. -/
theorem take {r : Parser α} {k : α → Parser β} {f : α → Lexeme} (hr : r.Pinpoints s V)
    (htaken : r.Meets s (fun a t => Taken s.lexemes [f a] t.lexemes) fun _ => True)
    (hk : ∀ a t, Taken s.lexemes [f a] t.lexemes → (k a).Pinpoints t fun us => V (f a :: us)) :
    (r >>= k).Pinpoints s V := by
  refine bind (D := fun ts a => ts = [f a]) hr ?_ (fun _ => id) ?_
  · exact Meets.mono htaken (fun a t ht => ⟨_, ht, rfl⟩) fun _ => id
  · rintro _ a t ht rfl
    exact hk a t ht

/-- Nothing is taken. -/
theorem still {r : Parser α} {k : α → Parser β} (hr : r.Pinpoints s V)
    (hstill : r.Meets s (fun _ t => t.lexemes = s.lexemes) fun _ => True)
    (hk : ∀ a t, t.lexemes = s.lexemes → (k a).Pinpoints t V) : (r >>= k).Pinpoints s V := by
  refine bind_of_meets (Q := fun ts _ t => ts = [] ∧ t.lexemes = s.lexemes) hr ?_ ?_
  · exact .mono hstill (fun a t ht => ⟨[], ht.symm, rfl, ht⟩) fun _ => id
  · rintro _ a t ⟨rfl, ht⟩
    exact hk a t ht

/-- What is done in the end fails at no token. -/
theorem first {r : Parser α} {k : α → Parser β} (hr : r.Pinpoints s V)
    (hk : ∀ a t, t.lexemes ≠ [] → (k a).Pinpoints t fun _ => False) : (r >>= k).Pinpoints s V := by
  refine bind_of_meets (Q := fun _ _ t => t.lexemes ≠ []) hr ?_ fun _ a t ht =>
    (hk a t ht).mono fun _ => False.elim
  refine Meets.mono hr ?_ fun _ _ => trivial
  rintro a t ⟨ts, l, left, hs, ht, -⟩
  exact ⟨ts, by rw [hs, ht], by simp [ht]⟩

theorem map {r : Parser α} {f : α → β} (h : r.Pinpoints s V) : (f <$> r).Pinpoints s V := by
  rw [← bind_pure_comp]
  exact h.first fun _ _ ht => .pure ht

theorem advance (hs : Scanned s.lexemes) (hne : s.token ≠ .endOfInput) : advance.Pinpoints s V := by
  rcases hs.cases_cursor with h | ⟨-, he, h⟩
  · exact absurd h hne
  obtain ⟨l, left, hl⟩ := List.exists_cons_of_ne_nil h.ne_nil
  rw [hl] at he
  refine of_ok (t := s.advance) rfl ⟨[⟨s.token, s.loc⟩], l, left, he, hl, fun right => ?_⟩
  rw [Cursor.advance_of_lexemes he (List.cons_ne_nil _ _)]
  rfl

/-- A token that is known is taken. -/
theorem taking {k : Unit → Parser α} {x : Token} (hs : Scanned s.lexemes) (ht : s.token = x)
    (hne : x ≠ .endOfInput)
    (hk : ∀ t, s.lexemes = ⟨x, s.loc⟩ :: t.lexemes → Scanned t.lexemes →
      (k ()).Pinpoints t fun us => V (⟨x, s.loc⟩ :: us)) : (Parser.advance >>= k).Pinpoints s V := by
  subst ht
  rcases hs.cases_cursor with h | ⟨-, he, h⟩
  · exact absurd h hne
  refine bind_of_meets (Q := fun ts _ t => ts = [⟨s.token, s.loc⟩] ∧ s.lexemes = ts ++ t.lexemes ∧
    Scanned t.lexemes) (.advance hs hne) ⟨_, he, rfl, he, h⟩ ?_
  rintro _ _ t ⟨rfl, he, ht⟩
  exact hk t he ht

/-- The counters may change. -/
theorem count {c : Cursor → Cursor} (hs : s.lexemes ≠ [])
    (hc : ∀ ls, c { s with lexemes := ls } = { c s with lexemes := ls }) :
    (modify c : Parser PUnit).Pinpoints s V := by
  obtain ⟨l, left, hl⟩ := List.exists_cons_of_ne_nil hs
  have hsame : c s = { c s with lexemes := s.lexemes } := hc s.lexemes
  have hleft : (c s).lexemes = s.lexemes := congrArg (·.lexemes) hsame
  refine of_ok (t := c s) rfl ⟨[], l, left, hl, hleft.trans hl, fun right => ?_⟩
  exact congrArg (EStateM.Result.ok PUnit.unit) (hc (l :: right))

theorem enter (hs : Scanned s.lexemes) : enter.Pinpoints s V := by
  by_cases h : maxNesting ≤ s.depth ∨ maxHeight ≤ s.height
  · exact of_error (enter_of_le h) nofun
  · obtain ⟨l, left, hl⟩ := List.exists_cons_of_ne_nil hs.ne_nil
    exact of_ok (enter_of_lt h) ⟨[], l, left, hl, hl, fun right => enter_of_lt h⟩

theorem closing {r : Parser α} (h : r.Pinpoints s V) : (closing r).Pinpoints s V := by
  cases hr : r s with
  | ok a t =>
    obtain ⟨ts, l, left, hs, ht, hright⟩ := Meets.ok h hr
    refine of_ok (t := leave t) (by rw [Parser.closing, hr]) ⟨ts, l, left, hs, ht, fun right => ?_⟩
    rw [Parser.closing, hright]
    rfl
  | error e t =>
    refine of_error (t := leave t) (by rw [Parser.closing, hr]) fun wanted got hp => ?_
    obtain ⟨ts, l, left, hs, heq, hv, hright⟩ := h.error hr wanted got hp
    refine ⟨ts, l, left, hs, heq, hv, fun right => ?_⟩
    obtain ⟨u, hu⟩ := hright right
    exact ⟨leave u, by rw [Parser.closing, hu]⟩

theorem nested {r : Parser α} (hs : Scanned s.lexemes)
    (h : ∀ t, t.lexemes = s.lexemes → r.Pinpoints t V) : (nested r).Pinpoints s V :=
  still (.enter hs) (.enter (fun _ _ => rfl) fun _ => trivial) fun _ t ht => .closing (h t ht)

/-- A reader that looks at the tokens, if what it does hangs on those that it has seen in the end. -/
theorem look_of {f : Cursor → Parser α} (h : (f s).Pinpoints s V)
    (hf : ∀ ts l left, s.lexemes = ts ++ l :: left → (ts = [] → (f s).Stays s l) →
      ∀ right, f { s with lexemes := ts ++ l :: right } = f s) : (get >>= f).Pinpoints s V := by
  have hlook {r : Parser α} {s' : Cursor} (h : f s' = r) : (get >>= f) s' = r s' := congrFun h s'
  cases hr : f s s with
  | ok a t =>
    obtain ⟨ts, l, left, hs, ht, hright⟩ := Meets.ok h hr
    refine of_ok hr ⟨ts, l, left, hs, ht, fun right => ?_⟩
    refine (hlook (hf ts l left hs ?_ right)).trans (hright right)
    rintro rfl right
    rw [Meets, show f s { s with lexemes := l :: right } = _ from hright right]
  | error e t =>
    refine of_error hr fun wanted got hp => ?_
    obtain ⟨ts, l, left, hs, heq, hv, hright⟩ := h.error hr wanted got hp
    refine ⟨ts, l, left, hs, heq, hv, fun right => ?_⟩
    obtain ⟨u, hu⟩ := hright right
    refine ⟨u, (hlook (hf ts l left hs ?_ right)).trans hu⟩
    rintro rfl right
    obtain ⟨u, hu⟩ := hright right
    rw [Meets, show f s { s with lexemes := l :: right } = _ from hu]
    exact ⟨wanted, got, hp⟩

/-- A reader that looks at the current token. -/
theorem look {f : Cursor → Parser α} (h : (f s).Pinpoints s V) (hf : ∀ s', s.Looks s' → f s' = f s) :
    (get >>= f).Pinpoints s V :=
  h.look_of fun _ _ _ hs _ right => hf _ (Cursor.looks_of_append hs right)

/-- A loop that goes on with fewer tokens. -/
theorem loop {r : Parser α} {step : Parser α → Parser α} (heq : ∀ s, step r s = r s)
    (h : ∀ s again, Scanned s.lexemes →
      (∀ t, Scanned t.lexemes → t.lexemes.length < s.lexemes.length → again.Pinpoints t V) →
        (step again).Pinpoints s V) (hs : Scanned s.lexemes) : r.Pinpoints s V := by
  generalize hn : s.lexemes.length = n
  induction n using Nat.strong_induction_on generalizing s with
  | _ n ih =>
    rw [← funext heq]
    exact h s r hs fun t ht hlt => ih _ (hn ▸ hlt) ht rfl

/-! ### Tokens -/

theorem expect {x : Token} (hs : Scanned s.lexemes) (hne : x ≠ .endOfInput) (hV : V []) :
    (expect x).Pinpoints s V := by
  refine .look ?_ fun s' h => by rw [h.token]
  split
  · next ht => exact .advance hs (ht ▸ hne)
  · exact .unexpected hs hV

theorem expectName {wanted : Expected} (hs : Scanned s.lexemes) (hV : V []) :
    (expectName wanted).Pinpoints s V := by
  refine .look ?_ fun s' h => by rw [h.token]
  split
  · next ht => exact .taking hs ht nofun fun t _ ht => .pure ht.ne_nil
  · exact .unexpected hs hV

theorem expectType (hs : Scanned s.lexemes) (hV : V []) : expectType.Pinpoints s V := by
  refine .look ?_ fun s' h => by rw [h.token]
  split
  · next ht => exact .taking hs ht nofun fun t _ ht => .pure ht.ne_nil
  · exact .unexpected hs hV

/-- A mark is expected and taken. -/
theorem mark {k : Unit → Parser α} {mark : Punctuation} (hs : Scanned s.lexemes) (hV : V [])
    (hk : ∀ t i, Scanned t.lexemes → (k ()).Pinpoints t fun us => V (⟨.punctuation mark, i⟩ :: us)) :
    (expectMark mark >>= k).Pinpoints s V :=
  .take (.expect hs nofun hV) (taken_expectMark hs) fun _ t ht => hk t s.loc ht.scanned

end Pinpoints

end Parser

end Labyrinth
