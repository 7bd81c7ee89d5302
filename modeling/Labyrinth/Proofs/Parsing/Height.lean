import Labyrinth.Proofs.Except
import Labyrinth.Proofs.Parsing.Placed

/-!
# The height of what is read

`maxHeight` does not bound the height of expressions. A chain of operators gives back the height that it
has used, so the operands that are read in front of a chain of a looser level are not counted there: at
every level of nesting each of the six levels of operators may add a chain of its own
(`Program.exists_taller`). What the counters do bound is `peak` (`Program.height_le`).
-/

namespace Labyrinth

namespace Expr

mutual

/-- The number of levels of an expression above its leaves. -/
def height : Expr → Nat
  | int _ _ | float _ _ _ | bool _ _ | var _ _ => 0
  | binary _ _ left right => max (height left) (height right) + 1
  | unary _ _ operand => height operand + 1
  | call _ _ args => heightAll args + 1

def heightAll : List Expr → Nat
  | [] => 0
  | e :: es => max (height e) (heightAll es)

end

theorem height_relocate (i : Location) (e : Expr) : (e.relocate i).height = e.height := by
  cases e <;> rfl

theorem heightAll_le {n : Nat} {es : List Expr} (h : ∀ e ∈ es, e.height ≤ n) : heightAll es ≤ n := by
  induction es with
  | nil => exact Nat.zero_le n
  | cons e es ih =>
    obtain ⟨he, hes⟩ := List.forall_mem_cons.mp h
    exact Nat.max_le.mpr ⟨he, ih hes⟩

end Expr

namespace Parser

/-- The greatest height of an expression that is read at the height `h` with `room` levels to open: a
chain of each of the six levels of operators, on what is inside one more level. -/
def peak : Nat → Nat → Nat
  | 0, _ => 0
  | room + 1, h => peak room (h + 1) + 1 + 6 * (511 - h)

variable {ls : List Lexeme} {h n : Nat}

/-- From the height `h` on, the reader gives expressions of the height `n` at most, and none where the
greatest height is reached. -/
def Bounded (ls : List Lexeme) (h n : Nat) (r : Parser Expr) : Prop :=
  ∀ s, Remains ls s.lexemes → h ≤ s.height →
    r.Meets s (fun e t => s.Restored ls t ∧ s.height < maxHeight ∧ e.height ≤ n) fun _ => True

theorem Bounded.keeps {r : Parser Expr} (hr : Bounded ls h n r) : Keeps ls h r (·.height ≤ n) :=
  fun s hs hh => .mono (hr s hs hh) (fun _ _ ⟨ht, _, he⟩ => ⟨ht, he⟩) fun _ => id

theorem bounded_nested {r : Parser Expr} (hr : h < maxHeight → Keeps ls (h + 1) r (·.height ≤ n)) :
    Bounded ls h n (nested r) := by
  intro s hs hh
  refine .nested (fun _ hlow => ?_) fun _ => trivial
  refine .mono (hr (Nat.lt_of_le_of_lt hh hlow) _ hs (Nat.succ_le_succ hh)) ?_ fun _ => id
  rintro e t ⟨ht, he⟩
  exact ⟨ht.leave, hlow, he⟩

theorem meets_chainFrom_height {level : Nat} {operand : Parser Expr} (hop : Bounded ls h n operand)
    (bound : Nat) {s : Cursor} {left : Expr} (hs : Remains ls s.lexemes) (hh : h ≤ s.height)
    (hlow : s.height < maxHeight) (hleft : left.height + h ≤ n + s.height) :
    (chainFrom level operand bound left).Meets s
      (fun e t => Remains ls t.lexemes ∧ t.depth = s.depth ∧ e.height ≤ n + (511 - h))
      fun _ => True := by
  have hchain : (chainFrom level operand bound left).Meets s
      (fun e t => Remains ls t.lexemes ∧ t.depth = s.depth ∧ h ≤ t.height ∧ t.height < maxHeight ∧
        e.height + h ≤ n + t.height) fun _ => True := by
    refine .chainFrom ?_ (fun _ => trivial) bound ⟨hs, rfl, hh, hlow, hleft⟩
    rintro left t op ⟨ht, hd, hh, -, hleft⟩ - -
    have hadvance := Cursor.Restored.advance (s := { t with height := t.height + 1 }) ht
    have hheight : _ = t.height + 1 := hadvance.height
    refine .mono (hop _ hadvance.remains (by omega)) ?_ fun _ => id
    rintro right u ⟨hu, hlow, hright⟩
    have hheight' := hu.height
    -- the operator raises the counter and the expression alike
    refine ⟨hu.remains, (hadvance.trans hu).depth.trans hd, by omega, by omega, ?_⟩
    rw [Expr.height]
    omega
  refine .mono hchain ?_ fun _ => id
  rintro e t ⟨ht, hd, hh, hlow, he⟩
  refine ⟨ht, hd, ?_⟩
  unfold maxHeight at hlow
  omega

theorem bounded_chain {level : Nat} {operand : Parser Expr} (hop : Bounded ls h n operand) :
    Bounded ls h (n + (511 - h)) (chain level operand) := by
  intro s hs hh
  refine .bind (hop s hs hh) ?_
  rintro first t ⟨ht, hlow, hfirst⟩
  have hheight := ht.height
  refine .get (.bind (meets_chainFrom_height hop _ ht.remains (by omega) (by omega) (by omega)) ?_)
  rintro e u ⟨hu, hd, he⟩
  -- the height goes back to what it was in front of the first operator
  exact .modify (.pure ⟨⟨hu, hd.trans ht.depth, hheight⟩, hlow, he⟩)

theorem bounded_levelled {operand : Parser Expr} (hop : Bounded ls h n operand) {level : Nat}
    (hl : level ≤ 6) : Bounded ls h (n + (6 - level) * (511 - h)) (levelled operand level) := by
  refine levelled_induction (P := fun level r => Bounded ls h (n + (6 - level) * (511 - h)) r)
    (by simpa using hop) ?_ level hl
  intro level hl ih
  have hsum : n + (6 - level) * (511 - h) = n + (6 - (level + 1)) * (511 - h) + (511 - h) := by
    rw [show 6 - level = 6 - (level + 1) + 1 by omega, Nat.succ_mul, Nat.add_assoc]
  rw [hsum]
  exact bounded_chain ih

theorem keeps_literal (raw : String) (i : Location) : Keeps ls h (literal raw i) (·.height ≤ 0) := by
  unfold literal
  split
  · split
    · exact .pure (Nat.le_refl 0)
    · exact .throw _
  · split
    · exact .pure (Nat.le_refl 0)
    · exact .throw _

theorem keeps_primary {inner : Parser Expr} (hinner : Keeps ls h inner (·.height ≤ n)) :
    Keeps ls h (primary inner) (·.height ≤ n + 1) := by
  refine .get fun s => ?_
  split
  · exact .after .advance fun _ => .mono (keeps_literal _ _) fun e he => Nat.le_trans he (by omega)
  · exact .after .advance fun _ => .pure (Nat.zero_le _)
  · refine .after .advance fun _ => .get fun s => ?_
    split
    · exact .bind (.parenthesized hinner) fun args hargs =>
        .pure (Nat.succ_le_succ (Expr.heightAll_le hargs))
    · exact .pure (Nat.zero_le _)
  · refine .after .advance fun _ => .bind hinner fun e he => .after (.expect _) fun _ => .pure ?_
    rw [Expr.height_relocate]
    exact Nat.le_succ_of_le he
  · exact .unexpected _

theorem bounded_operand_zero : Bounded ls h n (operand 0) := fun _ _ _ => .fail trivial

theorem bounded_expression_zero : Bounded ls h n (expression 0) := by
  have hfails : ∀ s, (expression 0).Meets s (fun _ _ => False) fun _ => True := by
    refine levelled_induction (P := fun _ r => ∀ s, r.Meets s (fun _ _ => False) fun _ => True)
      (fun _ => .fail trivial) (fun level _ ih s => ?_) 0 (Nat.zero_le 6)
    exact .bind (ih s) nofun
  exact fun s _ _ => .mono (hfails s) nofun fun _ => id

/-- What is inside of an operand is one level deeper, and lower. -/
theorem bounded_operand_succ {room : Nat}
    (hop : h < maxHeight → Keeps ls (h + 1) (operand room) (·.height ≤ n))
    (hexpr : h < maxHeight → Keeps ls (h + 1) (expression room) (·.height ≤ n)) :
    Bounded ls h (n + 1) (operand (room + 1)) := by
  refine bounded_nested fun hh => .get fun s => ?_
  split
  · exact .after .advance fun _ => .bind (hop hh) fun e he => .pure (Nat.succ_le_succ he)
  · exact keeps_primary (hexpr hh)

theorem bounded_expression_succ {room : Nat} (hop : Bounded ls h n (operand (room + 1))) :
    Bounded ls h (n + 6 * (511 - h)) (expression (room + 1)) :=
  bounded_levelled hop (Nat.zero_le 6)

theorem bounded_operand : ∀ (room h : Nat),
    Bounded ls h (peak room (h + 1) + 1) (operand (room + 1))
  | 0, _ => bounded_operand_succ (fun _ => bounded_operand_zero.keeps)
      fun _ => bounded_expression_zero.keeps
  | room + 1, h => by
    have hop := bounded_operand room (h + 1)
    refine bounded_operand_succ (fun _ => hop.keeps.mono fun e he => ?_)
      fun _ => (bounded_expression_succ hop).keeps
    exact Nat.le_trans he (Nat.le_add_right _ _)

theorem keeps_expression (room h : Nat) : Keeps ls h (expression room) (·.height ≤ peak room h) := by
  cases room with
  | zero => exact bounded_expression_zero.keeps
  | succ room => exact (bounded_expression_succ (bounded_operand room h)).keeps

end Parser

namespace Program

variable {ls : List Lexeme} {p : Program}

/-- An expression inside `n` blocks is at most as high as one chain for each level of operators and each
level of nesting that is left, and one more for the level itself. -/
theorem height_le (h : ofLexemes ls = .ok p) :
    ∀ x ∈ p.placed, x.2.height ≤ Parser.peak (maxNesting - x.1) x.1 :=
  forall_placed (P := fun x => x.2.height ≤ Parser.peak (maxNesting - x.1) x.1)
    (fun n => Parser.keeps_expression (maxNesting - n) n) h

/-- Products in a sum, which is a statement. -/
def tower (products sums : Nat) : List Lexeme :=
  ⟨.number "1", .start⟩ ::
    (List.replicate products [⟨.operator .star, .start⟩, ⟨.number "1", .start⟩]).flatten ++
    (List.replicate sums [⟨.operator .plus, .start⟩, ⟨.number "1", .start⟩]).flatten ++
    [⟨.punctuation .semicolon, .start⟩, ⟨.endOfInput, .start⟩]

/-- Neither of the chains is longer than the limit, but the tree is higher. -/
theorem exists_taller : ∃ p, ofLexemes (tower 257 256) = .ok p ∧
    ∃ x ∈ p.placed, maxHeight < x.2.height := by
  obtain ⟨p, hp, h⟩ := Except.any_toOption (x := ofLexemes (tower 257 256))
    (q := fun p => p.placed.any fun x => maxHeight < x.2.height) (by decide +kernel)
  obtain ⟨x, hx, hheight⟩ := List.any_eq_true.mp h
  exact ⟨p, hp, x, hx, of_decide_eq_true hheight⟩

end Program

end Labyrinth
