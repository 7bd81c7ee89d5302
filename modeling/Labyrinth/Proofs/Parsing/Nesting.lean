import Labyrinth.Proofs.Except
import Labyrinth.Proofs.Parsing.Placed

/-!
# The nesting of what is read

`Expr.nesting` counts the levels that an expression needs: one for each leaf, prefix operator and call on
the way to a leaf, and none for an operator between operands. A level is opened for each of them, so inside
of `n` blocks an expression with more than `maxNesting - n` of them is not read (`Program.nesting_le`).
-/

namespace Labyrinth

namespace Expr

mutual

/-- The greatest number of leaves, prefix operators and calls inside each other. -/
def nesting : Expr → Nat
  | int _ _ | float _ _ _ | bool _ _ | var _ _ => 1
  | unary _ _ operand => 1 + nesting operand
  | call _ _ args => 1 + nestingAll args
  | binary _ _ left right => max (nesting left) (nesting right)

def nestingAll : List Expr → Nat
  | [] => 0
  | e :: es => max (nesting e) (nestingAll es)

end

mutual

/-- An expression and all that stand in it. -/
def parts : Expr → List Expr
  | binary i op left right => binary i op left right :: (parts left ++ parts right)
  | unary i op operand => unary i op operand :: parts operand
  | call i name args => call i name args :: partsAll args
  | int i value => [int i value]
  | float i raw value => [float i raw value]
  | bool i value => [bool i value]
  | var i name => [var i name]

def partsAll : List Expr → List Expr
  | [] => []
  | e :: es => parts e ++ partsAll es

end

variable {n : Nat}

theorem mem_parts_self : ∀ e : Expr, e ∈ e.parts
  | int _ _ | float _ _ _ | bool _ _ | var _ _ => List.mem_singleton_self _
  | unary _ _ _ | binary _ _ _ _ | call _ _ _ => List.mem_cons_self

theorem nesting_pos : ∀ e : Expr, 0 < e.nesting
  | int _ _ | float _ _ _ | bool _ _ | var _ _ => Nat.one_pos
  | unary _ _ _ | call _ _ _ => by
    rw [nesting]
    omega
  | binary _ _ left _ => Nat.lt_of_lt_of_le (nesting_pos left) (Nat.le_max_left _ _)

theorem nesting_relocate (i : Location) (e : Expr) : (e.relocate i).nesting = e.nesting := by
  cases e <;> rfl

theorem nestingAll_le {es : List Expr} (h : ∀ e ∈ es, e.nesting ≤ n) : nestingAll es ≤ n := by
  induction es with
  | nil => exact Nat.zero_le n
  | cons e es ih =>
    obtain ⟨he, hes⟩ := List.forall_mem_cons.mp h
    exact Nat.max_le.mpr ⟨he, ih hes⟩

mutual

/-- What stands in an expression needs no more levels. -/
theorem nesting_le_of_mem_parts {e : Expr} :
    ∀ {whole : Expr}, e ∈ whole.parts → e.nesting ≤ whole.nesting
  | int _ _, h | float _ _ _, h | bool _ _, h | var _ _, h => by
    obtain rfl := List.mem_singleton.mp h
    exact Nat.le_refl _
  | binary _ _ left right, h => by
    rw [parts, List.mem_cons, List.mem_append] at h
    rcases h with rfl | h | h
    · exact Nat.le_refl _
    · exact Nat.le_trans (nesting_le_of_mem_parts h) (Nat.le_max_left _ _)
    · exact Nat.le_trans (nesting_le_of_mem_parts h) (Nat.le_max_right _ _)
  | unary _ _ operand, h => by
    rcases List.mem_cons.mp h with rfl | h
    · exact Nat.le_refl _
    · exact Nat.le_add_left_of_le (nesting_le_of_mem_parts h)
  | call _ _ args, h => by
    rcases List.mem_cons.mp h with rfl | h
    · exact Nat.le_refl _
    · exact Nat.le_add_left_of_le (nesting_le_of_mem_partsAll h)

theorem nesting_le_of_mem_partsAll {e : Expr} :
    ∀ {es : List Expr}, e ∈ partsAll es → e.nesting ≤ nestingAll es
  | [], h => nomatch h
  | _ :: _, h => by
    rw [partsAll, List.mem_append] at h
    rcases h with h | h
    · exact Nat.le_trans (nesting_le_of_mem_parts h) (Nat.le_max_left _ _)
    · exact Nat.le_trans (nesting_le_of_mem_partsAll h) (Nat.le_max_right _ _)

end

end Expr

namespace Parser

variable {ls : List Lexeme} {h n : Nat} {P : Expr → Prop}

/-! ### Readers of expressions that give back what they use -/

theorem Keeps.nested {r : Parser Expr} (hr : Keeps ls (h + 1) r P) : Keeps ls h (nested r) P := by
  intro s hs hh
  refine .nested (fun _ _ => ?_) fun _ => trivial
  refine .mono (hr _ hs (Nat.succ_le_succ hh)) ?_ fun _ => id
  rintro e t ⟨ht, he⟩
  exact ⟨ht.leave, he⟩

/-- What holds of the operands, and of an operation if it holds of both sides, holds of a chain. -/
theorem Keeps.chain {level : Nat} {operand : Parser Expr} (hop : Keeps ls h operand P)
    (hbinary : ∀ i op left right, P left → P right → P (.binary i op left right)) :
    Keeps ls h (chain level operand) P := by
  intro s hs hh
  refine .bind (hop s hs hh) ?_
  rintro first t ⟨ht, hfirst⟩
  have hchain : (chainFrom level operand (maxHeight + 1) first).Meets t
      (fun e u => Remains ls u.lexemes ∧ u.depth = t.depth ∧ h ≤ u.height ∧ P e) fun _ => True := by
    refine .chainFrom ?_ (fun _ => trivial) _ ⟨ht.remains, rfl, ht.height ▸ hh, hfirst⟩
    rintro left u op ⟨hu, hd, hh, hleft⟩ - -
    have hadvance := Cursor.Restored.advance (s := { u with height := u.height + 1 }) hu
    have hheight : _ = u.height + 1 := hadvance.height
    refine .mono (hop _ hadvance.remains (by omega)) ?_ fun _ => id
    rintro right v ⟨hv, hright⟩
    have hheight' := hv.height
    exact ⟨hv.remains, (hadvance.trans hv).depth.trans hd, by omega, hbinary _ _ _ _ hleft hright⟩
  refine .get (.bind hchain ?_)
  rintro e u ⟨hu, hd, -, he⟩
  -- the height goes back to what it was in front of the first operator
  exact .modify (.pure ⟨⟨hu, hd.trans ht.depth, ht.height⟩, he⟩)

theorem Keeps.infixed {operand : Parser Expr} (hop : Keeps ls h operand P)
    (hbinary : ∀ i op left right, P left → P right → P (.binary i op left right)) :
    Keeps ls h (infixed operand) P :=
  levelled_induction (P := fun _ r => Keeps ls h r P) hop (fun _ _ ih => ih.chain hbinary) 0
    (Nat.zero_le 6)

/-! ### Levels -/

theorem keeps_literal_nesting (raw : String) (i : Location) :
    Keeps ls h (literal raw i) (·.nesting = 1) := by
  unfold literal
  split
  · split
    · exact .pure rfl
    · exact .throw _
  · split
    · exact .pure rfl
    · exact .throw _

theorem keeps_primary_nesting {inner : Parser Expr} (hinner : Keeps ls h inner (·.nesting ≤ n)) :
    Keeps ls h (primary inner) (·.nesting ≤ 1 + n) := by
  refine .get fun s => ?_
  split
  · exact .after .advance fun _ => .mono (keeps_literal_nesting _ _) fun e he => by omega
  · exact .after .advance fun _ => .pure (Nat.le_add_right 1 n)
  · refine .after .advance fun _ => .get fun s => ?_
    split
    · exact .bind (.parenthesized hinner) fun args hargs =>
        .pure (Nat.add_le_add_left (Expr.nestingAll_le hargs) 1)
    · exact .pure (Nat.le_add_right 1 n)
  · refine .after .advance fun _ => .bind hinner fun e he => .after (.expect _) fun _ => .pure ?_
    rw [Expr.nesting_relocate]
    exact Nat.le_add_left_of_le he
  · exact .unexpected _

/-- An operator between operands opens no level. -/
theorem nesting_binary_le (i : Location) (op : BinaryOp) (left right : Expr) (hl : left.nesting ≤ n)
    (hr : right.nesting ≤ n) : (Expr.binary i op left right).nesting ≤ n :=
  Nat.max_le.mpr ⟨hl, hr⟩

theorem keeps_operand_nesting : ∀ (room h : Nat), Keeps ls h (operand room) (·.nesting ≤ room)
  | 0, _ => .fail _
  | room + 1, h => by
    have hop := keeps_operand_nesting room (h + 1)
    have hinner := keeps_primary_nesting (hop.infixed nesting_binary_le)
    rw [Nat.add_comm 1 room] at hinner
    refine .nested (.get fun s => ?_)
    split
    · refine .after .advance fun _ => .bind hop fun e he => .pure ?_
      rw [Expr.nesting, Nat.add_comm]
      exact Nat.succ_le_succ he
    · exact hinner

/-- With room for so many levels no expression is read that needs more. -/
theorem keeps_expression_nesting (room h : Nat) :
    Keeps ls h (expression room) (·.nesting ≤ room) :=
  (keeps_operand_nesting room h).infixed nesting_binary_le

end Parser

namespace Program

variable {ls : List Lexeme} {p : Program}

/-- Blocks are at most 64 inside each other, and with the blocks around an expression no more than 64 levels
are open in it. -/
theorem nesting_le (h : ofLexemes ls = .ok p) : (∀ d ∈ p, d.blocks ≤ maxNesting) ∧
    ∀ x ∈ p.placed, ∀ e ∈ x.2.parts, x.1 + e.nesting ≤ maxNesting := by
  have hexpr (n : Nat) : Parser.Keeps ls n (Parser.expression (maxNesting - n)) fun e =>
      n + e.nesting ≤ maxNesting := by
    refine .mono (Parser.keeps_expression_nesting (maxNesting - n) n) fun e he => ?_
    have hpos := e.nesting_pos
    omega
  obtain ⟨hplaced, hblocks⟩ := of_keeps (P := fun x => x.1 + x.2.nesting ≤ maxNesting) hexpr h
  refine ⟨hblocks, fun x hx e he => ?_⟩
  exact Nat.le_trans (Nat.add_le_add_left (Expr.nesting_le_of_mem_parts he) x.1) (hplaced x hx)

/-- A number behind minus signs inside of blocks. -/
def negated (blocks signs : Nat) : List Lexeme :=
  List.replicate blocks ⟨.punctuation .openBrace, .start⟩ ++
    List.replicate signs ⟨.operator .minus, .start⟩ ++
    [⟨.number "1", .start⟩, ⟨.punctuation .semicolon, .start⟩] ++
    List.replicate blocks ⟨.punctuation .closeBrace, .start⟩ ++ [⟨.endOfInput, .start⟩]

/-- The limit is reached. -/
theorem nesting_le_negated : ∃ p, ofLexemes (negated 20 43) = .ok p ∧
    (∃ x ∈ p.placed, x.1 + x.2.nesting = maxNesting) ∧ (∀ d ∈ p, d.blocks ≤ maxNesting) ∧
    ∀ x ∈ p.placed, ∀ e ∈ x.2.parts, x.1 + e.nesting ≤ maxNesting := by
  obtain ⟨p, hp, h⟩ := Except.any_toOption (x := ofLexemes (negated 20 43))
    (q := fun p => p.placed.any fun x => x.1 + x.2.nesting = maxNesting) (by decide +kernel)
  obtain ⟨x, hx, hnesting⟩ := List.any_eq_true.mp h
  exact ⟨p, hp, ⟨x, hx, of_decide_eq_true hnesting⟩, nesting_le hp⟩

end Program

end Labyrinth
