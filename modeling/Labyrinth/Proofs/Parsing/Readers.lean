import Labyrinth.Program.Parser
import Mathlib.Data.Nat.Init

/-!
# What readers do

`Parser.Meets r s Q E` says of a reader at a cursor that it gives a value and a cursor with the property
`Q`, or fails with an error of which `E` holds. There is one rule for each step that readers are made of.
-/

namespace Labyrinth

namespace Cursor

variable {s : Cursor} {l : Lexeme} {ls : List Lexeme}

theorem token_of_lexemes (h : s.lexemes = l :: ls) : s.token = l.token := by
  rw [token, h]

theorem loc_of_lexemes (h : s.lexemes = l :: ls) : s.loc = l.loc := by
  rw [loc, h]

theorem nextToken_of_lexemes {l' : Lexeme} (h : s.lexemes = l :: l' :: ls) :
    s.nextToken = l'.token := by
  rw [nextToken, h]

/-- The last token is never left behind. -/
theorem advance_of_lexemes (h : s.lexemes = l :: ls) (hls : ls ≠ []) :
    s.advance = { s with lexemes := ls } := by
  cases ls with
  | nil => exact absurd rfl hls
  | cons l' ls => rw [advance, h]

theorem token_advance (h : s.nextToken ≠ .endOfInput) : s.advance.token = s.nextToken := by
  unfold nextToken advance token at *
  split at h
  · simp
  · exact absurd rfl h

end Cursor

namespace Parser

variable {α β : Type} {s : Cursor} {Q : α → Cursor → Prop} {R : β → Cursor → Prop}
  {E : SyntaxError → Prop}

def Meets (r : Parser α) (s : Cursor) (Q : α → Cursor → Prop) (E : SyntaxError → Prop) : Prop :=
  match r s with
  | .ok a t => Q a t
  | .error e _ => E e

theorem Meets.ok {r : Parser α} {a : α} {t : Cursor} (h : r.Meets s Q E) (hr : r s = .ok a t) :
    Q a t := by
  rw [Meets, hr] at h
  exact h

/-- A reader that cannot fail gives a value. -/
theorem Meets.exists_ok {r : Parser α} (h : r.Meets s Q fun _ => False) :
    ∃ a t, r s = .ok a t ∧ Q a t := by
  unfold Meets at h
  split at h
  · next a t hr => exact ⟨a, t, hr, h⟩
  · exact h.elim

namespace Meets

theorem mono {Q' : α → Cursor → Prop} {E' : SyntaxError → Prop} {r : Parser α} (h : r.Meets s Q E)
    (hQ : ∀ a t, Q a t → Q' a t) (hE : ∀ e, E e → E' e) : r.Meets s Q' E' := by
  unfold Meets at h ⊢
  split at h
  · exact hQ _ _ h
  · exact hE _ h

theorem and {Q' : α → Cursor → Prop} {r : Parser α} (h : r.Meets s Q E) (h' : r.Meets s Q' E) :
    r.Meets s (fun a t => Q a t ∧ Q' a t) E := by
  unfold Meets at *
  split at h
  · next hr =>
    rw [hr] at h'
    exact ⟨h, h'⟩
  · exact h

theorem pure {a : α} (h : Q a s) : (pure a : Parser α).Meets s Q E := h

theorem bind {r : Parser α} {f : α → Parser β} (hr : r.Meets s Q E)
    (hf : ∀ a t, Q a t → (f a).Meets t R E) : (r >>= f).Meets s R E := by
  show match EStateM.bind r f s with
    | .ok b t => R b t
    | .error e _ => E e
  unfold Meets at hr
  unfold EStateM.bind
  split at hr
  · next a t h =>
    rw [h]
    exact hf a t hr
  · next e t h =>
    rw [h]
    exact hr

theorem map {r : Parser α} {f : α → β} (h : r.Meets s (fun a => R (f a)) E) :
    (f <$> r).Meets s R E := by
  show match EStateM.map f r s with
    | .ok b t => R b t
    | .error e _ => E e
  unfold Meets at h
  unfold EStateM.map
  split at h
  · next hr => rw [hr]; exact h
  · next hr => rw [hr]; exact h

theorem get {f : Cursor → Parser β} (h : (f s).Meets s R E) : (get >>= f).Meets s R E := h

theorem set {t : Cursor} {f : PUnit → Parser β} (h : (f ⟨⟩).Meets t R E) :
    (set t >>= f).Meets s R E := h

theorem modify {g : Cursor → Cursor} {f : PUnit → Parser β} (h : (f ⟨⟩).Meets (g s) R E) :
    (modify g >>= f).Meets s R E := h

theorem advance {f : Unit → Parser β} (h : (f ()).Meets s.advance R E) :
    (advance >>= f).Meets s R E := h

theorem fail {problem : SyntaxProblem} (h : E ⟨problem, s.loc⟩) :
    (fail problem : Parser α).Meets s Q E := h

theorem unexpected {wanted : Expected} (h : E ⟨.unexpected wanted s.token, s.loc⟩) :
    (unexpected wanted : Parser α).Meets s Q E := h

theorem expect {t : Token} {Q : Unit → Cursor → Prop} (h : s.token = t → Q () s.advance)
    (hE : s.token ≠ t → E ⟨.unexpected (.token t) s.token, s.loc⟩) : (expect t).Meets s Q E := by
  refine get ?_
  split
  · next ht => exact h ht
  · next ht => exact unexpected (hE ht)

theorem expect_of_lexemes {t : Token} {i : Location} {rest : List Lexeme}
    (hs : s.lexemes = ⟨t, i⟩ :: rest) (hne : rest ≠ []) :
    (Parser.expect t).Meets s (fun _ u => u = { s with lexemes := rest }) E := by
  refine expect (fun _ => Cursor.advance_of_lexemes hs hne) fun h => ?_
  exact absurd (Cursor.token_of_lexemes hs) h

/-- A level is opened where both counters allow it. -/
theorem enter {Q : PUnit → Cursor → Prop}
    (h : s.depth < maxNesting → s.height < maxHeight →
      Q ⟨⟩ { s with depth := s.depth + 1, height := s.height + 1 })
    (hE : maxNesting ≤ s.depth ∨ maxHeight ≤ s.height → E ⟨.tooDeep, s.loc⟩) :
    Parser.enter.Meets s Q E := by
  refine get ?_
  split
  · next hn => exact bind (Q := fun _ _ => False) (fail (hE hn)) nofun
  · next hn =>
    obtain ⟨hd, hh⟩ := not_or.mp hn
    exact h (Nat.lt_of_not_le hd) (Nat.lt_of_not_le hh)

theorem nested {r : Parser α}
    (h : s.depth < maxNesting → s.height < maxHeight →
      r.Meets { s with depth := s.depth + 1, height := s.height + 1 } (fun a t => Q a (leave t)) E)
    (hE : maxNesting ≤ s.depth ∨ maxHeight ≤ s.height → E ⟨.tooDeep, s.loc⟩) :
    (nested r).Meets s Q E := by
  have hopen : Parser.enter.Meets s (fun _ t => s.depth < maxNesting ∧ s.height < maxHeight ∧
      t = { s with depth := s.depth + 1, height := s.height + 1 }) E :=
    enter (fun hd hh => ⟨hd, hh, rfl⟩) hE
  refine bind hopen ?_
  rintro ⟨⟩ t ⟨hd, hh, rfl⟩
  have h := h hd hh
  unfold Meets at h
  show match (match r { s with depth := s.depth + 1, height := s.height + 1 } with
    | .ok a t => EStateM.Result.ok a (leave t)
    | .error e t => .error e (leave t)) with
    | .ok a t => Q a t
    | .error e _ => E e
  split at h
  · exact h
  · exact h

/-- What each operator of a chain keeps holds at its end. -/
theorem chainFrom {n : Nat} {operand : Parser Expr} {I : Expr → Cursor → Prop}
    (step : ∀ left s op, I left s → BinaryOp.ofToken? n s.token = some op → s.height < maxHeight →
      operand.Meets { s with height := s.height + 1 }.advance
        (fun right t => I (.binary left.loc op left right) t) E)
    (hE : ∀ i, E ⟨.tooDeep, i⟩) (bound : Nat) {left : Expr} (h : I left s) :
    (chainFrom n operand bound left).Meets s I E := by
  induction bound generalizing s left with
  | zero => exact pure h
  | succ bound ih =>
    refine get ?_
    split
    · exact pure h
    next op hop =>
    split
    · exact bind (Q := fun _ _ => False) (fail (hE _)) nofun
    next hlow =>
    refine set (advance (bind (step left s op h hop (Nat.lt_of_not_le hlow)) ?_))
    exact fun right t ht => ih ht

end Meets

/-! ### What is done first -/

theorem enter_of_le (h : maxNesting ≤ s.depth ∨ maxHeight ≤ s.height) :
    enter s = .error ⟨.tooDeep, s.loc⟩ s := by
  show (if _ then fail .tooDeep else _ : Parser PUnit) s = _
  rw [if_pos h]
  rfl

theorem enter_of_lt (h : ¬(maxNesting ≤ s.depth ∨ maxHeight ≤ s.height)) :
    enter s = .ok ⟨⟩ { s with depth := s.depth + 1, height := s.height + 1 } := by
  show (if _ then fail .tooDeep else set _ : Parser PUnit) s = _
  rw [if_neg h]
  rfl

theorem bind_of_ok {r : Parser α} {k : α → Parser β} {a : α} {t : Cursor} (h : r s = .ok a t) :
    (r >>= k) s = k a t := by
  show EStateM.bind r k s = k a t
  rw [EStateM.bind, h]

theorem bind_of_error {r : Parser α} {k : α → Parser β} {e : SyntaxError} {t : Cursor}
    (h : r s = .error e t) : (r >>= k) s = .error e t := by
  show EStateM.bind r k s = .error e t
  rw [EStateM.bind, h]

/-! ### Levels of operators -/

/-- The reader of the expressions of a level. -/
def levelled (operand : Parser Expr) (n : Nat) : Parser Expr :=
  ((List.range 6).drop n).foldr chain operand

theorem levelled_of_lt {operand : Parser Expr} {n : Nat} (h : n < 6) :
    levelled operand n = chain n (levelled operand (n + 1)) := by
  rw [levelled, List.drop_eq_getElem_cons (by simpa using h), List.foldr_cons, List.getElem_range]
  rfl

/-- What holds at the tightest level, and at each level if at the next, holds at all levels. -/
theorem levelled_induction {P : Nat → Parser Expr → Prop} {operand : Parser Expr}
    (top : P 6 operand)
    (step : ∀ n < 6, P (n + 1) (levelled operand (n + 1)) →
      P n (chain n (levelled operand (n + 1)))) :
    ∀ n ≤ 6, P n (levelled operand n) := by
  intro n hn
  induction hn using Nat.decreasingInduction with
  | self => exact top
  | of_succ n hn ih =>
    rw [levelled_of_lt hn]
    exact step n hn ih

end Parser

theorem BinaryOp.ofToken?_eq_some {n : Nat} {t : Token} {op : BinaryOp} :
    ofToken? n t = some op ↔ op.level = n ∧ t = .operator op.token := by
  constructor
  · intro h
    have hop := List.find?_some h
    simp only [decide_eq_true_eq] at hop
    exact ⟨hop.1, hop.2.symm⟩
  · rintro ⟨rfl, rfl⟩
    cases op <;> rfl

theorem UnaryOp.ofToken?_eq_some {t : Token} {op : UnaryOp} :
    ofToken? t = some op ↔ t = .operator op.token := by
  constructor
  · intro h
    unfold ofToken? at h
    split at h <;> cases h <;> rfl
  · rintro rfl
    cases op <;> rfl

end Labyrinth
