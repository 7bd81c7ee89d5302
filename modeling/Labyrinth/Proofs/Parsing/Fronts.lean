import Labyrinth.Proofs.Parsing.Height
import Labyrinth.Proofs.Parsing.Soundness

/-!
# Operands in front of operators

An operator counts for the height of what is read behind it, and not for that of the operands in front of
it, which are read already. Nothing else is left out: if no operand in front of an operator is higher than
`m + 1`, then no expression is higher than `maxHeight + m` (`Program.height_le_of_front`).
-/

namespace Labyrinth

open Grammar

variable {ls : List Lexeme} {m n h : Nat} {e : Expr}

/-- An operand in `ls` with an operator behind it. -/
def Front (ls : List Lexeme) (e : Expr) : Prop :=
  ∃ us ts op i vs, ls = us ++ ts ++ ⟨.operator (BinaryOp.token op), i⟩ :: vs ∧
    Expression (op.level + 1) ts e

theorem Grammar.Expression.height_of_length_le_one : ∀ {n : Nat} {ts : List Lexeme} {e : Expr},
    Expression n ts e → ts.length ≤ 1 → e.height = 0
  | _, _, _, .tighter h, hts => h.height_of_length_le_one hts
  | _, _, _, .int .., _ | _, _, _, .float .., _ | _, _, _, .bool, _ | _, _, _, .var, _ => rfl
  | _, _, _, .binary .., hts | _, _, _, .paren _, hts => by
    simp at hts
  | _, _, _, .unary h, hts => by
    obtain ⟨t, us, rfl, -⟩ := h.exists_first
    simp at hts
  | _, _, _, .call h, hts => by
    obtain ⟨i, us, rfl⟩ := h.exists_cons
    simp at hts

theorem Scanned.of_remains {us : List Lexeme} (hls : Scanned ls) (hus : Remains ls us) :
    Scanned us := by
  obtain ⟨hsuffix, hnil⟩ := hus
  replace hnil : us ≠ [] := fun h => hls.ne_nil (hnil h)
  induction hls with
  | last =>
    rcases List.suffix_cons_iff.mp hsuffix with rfl | hus
    · exact .last
    · exact absurd (List.suffix_nil.mp hus) hnil
  | cons hl hls ih =>
    rcases List.suffix_cons_iff.mp hsuffix with rfl | hus
    · exact .cons hl hls
    · exact ih hus

theorem Front.of_taken {s t : Cursor} {ts : List Lexeme} {op : BinaryOp}
    (hs : Remains ls s.lexemes) (hts : Taken s.lexemes ts t.lexemes)
    (he : Expression (op.level + 1) ts e) (hop : t.token = .operator op.token) : Front ls e := by
  obtain ⟨us, hus⟩ := hs.suffix
  rcases hts.scanned.cases_cursor with hend | ⟨-, ht, -⟩
  · cases hop.symm.trans hend
  · rw [hop] at ht
    exact ⟨us, ts, op, t.loc, t.advance.lexemes, by rw [← hus, hts.eq, ht, List.append_assoc], he⟩

namespace Parser

theorem Bounded.mono {n' : Nat} {r : Parser Expr} (hr : Bounded ls h n r)
    (hn : h < maxHeight → n ≤ n') : Bounded ls h n' r := by
  intro s hs hh
  refine .mono (hr s hs hh) ?_ fun _ => id
  rintro e t ⟨ht, hlow, he⟩
  exact ⟨ht, hlow, Nat.le_trans he (hn (Nat.lt_of_le_of_lt hh hlow))⟩

variable (hls : Scanned ls) (hfront : ∀ e, Front ls e → e.height ≤ m + 1)

include hls hfront

theorem meets_chainFrom_front {operand : Parser Expr}
    (hop : ∀ h, Bounded ls h (maxHeight + m - h) operand)
    (hsound : ∀ {s}, Scanned s.lexemes → operand.Sound s (Expression (n + 1))) (bound : Nat)
    {s : Cursor} {left : Expr} (hs : Remains ls s.lexemes) (hh : h ≤ s.height)
    (hleft : left.height ≤ maxHeight + m - h)
    (hnext : ∀ op, BinaryOp.ofToken? n s.token = some op →
      left.height ≤ s.height - h + (m + 1)) :
    (chainFrom n operand bound left).Meets s
      (fun e t => Remains ls t.lexemes ∧ t.depth = s.depth ∧ e.height ≤ maxHeight + m - h)
      fun _ => True := by
  have hchain : (chainFrom n operand bound left).Meets s
      (fun e t => Remains ls t.lexemes ∧ t.depth = s.depth ∧ h ≤ t.height ∧
        e.height ≤ maxHeight + m - h ∧ ∀ op, BinaryOp.ofToken? n t.token = some op →
          e.height ≤ t.height - h + (m + 1)) fun _ => True := by
    refine .chainFrom ?_ (fun _ => trivial) bound ⟨hs, rfl, hh, hleft, hnext⟩
    rintro left t op ⟨ht, hd, hh, -, hnext⟩ hop' -
    replace hnext := hnext op hop'
    have hadvance := Cursor.Restored.advance (s := { t with height := t.height + 1 }) ht
    have hheight : _ = t.height + 1 := hadvance.height
    refine .mono ((hop _ _ hadvance.remains (Nat.le_refl _)).and
      (hsound (hls.of_remains hadvance.remains))) ?_ fun _ => id
    rintro right u ⟨⟨hu, hlow, hright⟩, ts, hts, he⟩
    have hheight' := hu.height
    refine ⟨hu.remains, (hadvance.trans hu).depth.trans hd, by omega, ?_, fun op hop => ?_⟩
    · rw [Expr.height]
      omega
    · -- the right operand is in front of an operator as well
      obtain ⟨rfl, htoken⟩ := BinaryOp.ofToken?_eq_some.mp hop
      have := hfront right (.of_taken hadvance.remains hts he htoken)
      rw [Expr.height]
      omega
  refine .mono hchain ?_ fun _ => id
  rintro e t ⟨ht, hd, -, he, -⟩
  exact ⟨ht, hd, he⟩

theorem bounded_chain_front {operand : Parser Expr}
    (hop : ∀ h, Bounded ls h (maxHeight + m - h) operand)
    (hsound : ∀ {s}, Scanned s.lexemes → operand.Sound s (Expression (n + 1))) (h : Nat) :
    Bounded ls h (maxHeight + m - h) (chain n operand) := by
  intro s hs hh
  refine .bind ((hop h s hs hh).and (hsound (hls.of_remains hs))) ?_
  rintro first t ⟨⟨ht, hlow, hfirst⟩, ts, hts, he⟩
  have hheight := ht.height
  refine .get (.bind (meets_chainFrom_front hls hfront hop hsound _ ht.remains (by omega) hfirst
    fun op hop => ?_) ?_)
  · obtain ⟨rfl, htoken⟩ := BinaryOp.ofToken?_eq_some.mp hop
    exact Nat.le_add_left_of_le (hfront first (.of_taken hs hts he htoken))
  · rintro e u ⟨hu, hd, he⟩
    exact .modify (.pure ⟨⟨hu, hd.trans ht.depth, hheight⟩, hlow, he⟩)

theorem bounded_levelled_front {room : Nat}
    (hop : ∀ h, Bounded ls h (maxHeight + m - h) (operand room)) :
    ∀ n ≤ 6, ∀ h, Bounded ls h (maxHeight + m - h) (levelled (operand room) n) := by
  refine levelled_induction (P := fun _ r => ∀ h, Bounded ls h (maxHeight + m - h) r) hop ?_
  intro n hn ih
  exact bounded_chain_front hls hfront ih (sound_levelled (sound_operand room) hn)

theorem bounded_operand_front : ∀ (room h : Nat), Bounded ls h (maxHeight + m - h) (operand room)
  | 0, _ => bounded_operand_zero
  | room + 1, h => by
    have hop := bounded_operand_front room
    have hexpr := bounded_levelled_front hls hfront hop 0 (Nat.zero_le 6)
    refine (bounded_operand_succ (fun _ => (hop (h + 1)).keeps)
      fun _ => (hexpr (h + 1)).keeps).mono fun hh => ?_
    omega

theorem keeps_expression_front (room h : Nat) :
    Keeps ls h (expression room) fun e => h + e.height ≤ maxHeight + m := by
  have hexpr := bounded_levelled_front hls hfront (bounded_operand_front hls hfront room) 0
    (Nat.zero_le 6)
  intro s hs hh
  refine .mono (hexpr h s hs hh) ?_ fun _ => id
  rintro e t ⟨ht, hlow, he⟩
  exact ⟨ht, by omega⟩

end Parser

namespace Program

variable {p : Program}

/-- If the operands in front of operators are at most one high, the limit holds, and if they are higher, it
is exceeded by no more than they are. -/
theorem height_le_of_front (hls : Scanned ls) (hfront : ∀ e, Front ls e → e.height ≤ m + 1)
    (h : ofLexemes ls = .ok p) : ∀ x ∈ p.placed, x.1 + x.2.height ≤ maxHeight + m :=
  forall_placed (P := fun x => x.1 + x.2.height ≤ maxHeight + m)
    (fun n => Parser.keeps_expression_front hls hfront (maxNesting - n) n) h

theorem height_le_of_front_tower : ∃ p, ofLexemes (tower 0 1) = .ok p ∧
    ∀ x ∈ p.placed, x.1 + x.2.height ≤ maxHeight + 0 := by
  obtain ⟨p, hp⟩ := Except.isSome_toOption (x := ofLexemes (tower 0 1)) (by decide +kernel)
  refine ⟨p, hp, height_le_of_front (m := 0) ?_ ?_ hp⟩
  · have hone : (Token.number "1").Regular := .inl ⟨by decide, List.all_eq_true.mp (by decide)⟩
    exact .cons hone (.cons trivial (.cons hone (.cons trivial .last)))
  · rintro e ⟨us, ts, op, i, vs, hls, he⟩
    have hop : (tower 0 1)[(us ++ ts).length]? = some ⟨.operator op.token, i⟩ := by
      rw [hls, List.getElem?_append_right (Nat.le_refl _), Nat.sub_self]
      rfl
    have hlength : (us ++ ts).length ≤ 1 := by
      generalize (us ++ ts).length = k at hop
      rcases k with _ | _ | _ | _ | _ | k
      · cases hop
      · exact Nat.le_refl 1
      · cases hop
      · cases hop
      · cases hop
      · cases hop
    have hts : ts.length ≤ 1 := by
      rw [List.length_append] at hlength
      omega
    rw [he.height_of_length_le_one hts]
    exact Nat.zero_le _

end Program

end Labyrinth
