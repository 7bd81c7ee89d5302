import Mathlib.Order.Bounds.Defs
import Labyrinth.Proofs.Parsing.Completeness
import Labyrinth.Proofs.Parsing.Height

/-!
# The highest expression

`Parser.summit room h` are the tokens of an expression of the height `Parser.peak room h`: a call in a
call in a call, and around each of them a chain as long as it may be for each level of operators. They
are read, so the greatest height of an expression is that of a summit (`Program.greatest_height`).
-/

namespace Labyrinth

namespace Parser

variable {level room h n k : Nat} {ts : List Lexeme} {r : Parser Expr}

/-- With `room` levels to open and at the height `h` the tokens are read as an expression of the height
`n`, if behind them stands nothing that goes on with it. -/
def Climbs (level room h n : Nat) (ts : List Lexeme) (r : Parser Expr) : Prop :=
  ∀ s l rest, s.lexemes = ts ++ l :: rest → Stops level l.token → s.depth + room = maxNesting →
    s.height = h →
    r.Meets s (fun e t => e.height = n ∧ t = { s with lexemes := l :: rest }) fun _ => False

theorem Climbs.behind (hr : Climbs level room h n ts r) {s : Cursor} {x l : Lexeme}
    {rest : List Lexeme} (hs : s.lexemes = x :: (ts ++ l :: rest)) (hl : Stops level l.token)
    (hd : s.depth + room = maxNesting) (hh : s.height = h) :
    (do advance; r : Parser Expr).Meets s
      (fun e t => e.height = n ∧ t = { s with lexemes := l :: rest }) fun _ => False := by
  refine .advance ?_
  rw [Cursor.advance_of_lexemes hs (by simp)]
  exact hr _ l rest rfl hl hd hh

/-! ### Variables -/

def leaf : Lexeme := ⟨.identifier "a", .start⟩

theorem climbs_operand_leaf (room' : Nat) (hh : h < maxHeight) :
    Climbs 6 (room + 1) h 0 [leaf] (operand (room' + 1)) := by
  have hprimary (inner : Parser Expr) : ∀ s l rest, s.lexemes = [leaf] ++ l :: rest →
      Stops 6 l.token → (primary inner).Meets s
        (fun e t => e.height = 0 ∧ t = { s with lexemes := l :: rest }) fun _ => False := by
    intro s l rest hs hl
    refine .get ?_
    rw [Cursor.token_of_lexemes hs]
    refine .advance (.get ?_)
    rw [Cursor.advance_of_lexemes hs (by simp), if_neg]
    · exact .pure ⟨rfl, rfl⟩
    · exact hl.1
  intro s l rest hs hl hd hs'
  refine .nested (fun _ _ => .get ?_) (by omega)
  rw [Cursor.token_of_lexemes (s := { s with depth := s.depth + 1, height := s.height + 1 }) hs]
  refine .mono (hprimary _ _ l rest hs hl) ?_ fun _ => id
  rintro e _ ⟨he, rfl⟩
  exact ⟨he, rfl⟩

/-! ### Chains -/

def operatorAt : Nat → BinaryOp
  | 0 => .or
  | 1 => .and
  | 2 => .eq
  | 3 => .lt
  | 4 => .add
  | _ => .mul

theorem level_operatorAt : ∀ {n : Nat}, n < 6 → (operatorAt n).level = n := by
  decide

/-- Operators of a level with a variable behind each. -/
def links (n : Nat) : Nat → List Lexeme
  | 0 => []
  | k + 1 => ⟨.operator (operatorAt n).token, .start⟩ :: leaf :: links n k

theorem exists_links_cons (hn : n < 6) (k : Nat) {l : Lexeme} (rest : List Lexeme)
    (hl : Stops n l.token) : ∃ l' us, links n k ++ l :: rest = l' :: us ∧ Stops (n + 1) l'.token := by
  cases k with
  | zero => exact ⟨l, rest, rfl, hl.mono (Nat.le_succ n)⟩
  | succ k =>
    have hstops := stops_operator (operatorAt n)
    rw [level_operatorAt hn] at hstops
    exact ⟨_, _, rfl, hstops⟩

theorem meets_chainFrom_links (hn : n < 6)
    (hleaf : ∀ h < maxHeight, Climbs (n + 1) room h 0 [leaf] r) {l : Lexeme} {rest : List Lexeme}
    (hl : Stops n l.token) : ∀ {bound k : Nat} {left : Expr} {s : Cursor},
      s.lexemes = links n k ++ l :: rest → s.depth + room = maxNesting →
      s.height + k < maxHeight → k < bound → (chainFrom n r bound left).Meets s
        (fun e t => e.height = left.height + k ∧ t.lexemes = l :: rest ∧ t.depth = s.depth)
        fun _ => False
  | 0, _, _, _, _, _, _, hb => nomatch hb
  | bound + 1, 0, left, s, hs, _, _, _ => by
    refine .get ?_
    rw [Cursor.token_of_lexemes hs, hl.ofToken?_eq_none]
    exact .pure ⟨rfl, hs, rfl⟩
  | bound + 1, k + 1, left, s, hs, hd, hh, hb => by
    obtain ⟨l', us, he, hl'⟩ := exists_links_cons hn k rest hl
    refine .get ?_
    rw [Cursor.token_of_lexemes hs, BinaryOp.ofToken?_eq_some.mpr ⟨level_operatorAt hn, rfl⟩]
    dsimp only
    rw [if_neg (by omega)]
    have hs' : s.lexemes = ⟨.operator (operatorAt n).token, .start⟩ :: ([leaf] ++ l' :: us) := by
      rw [hs, ← he]
      rfl
    refine .set ?_
    rw [← bind_assoc]
    refine .bind ((hleaf (s.height + 1) (by omega)).behind hs' hl' hd rfl) ?_
    rintro right _ ⟨hright, rfl⟩
    refine .mono (meets_chainFrom_links hn hleaf hl he.symm hd ?_ (Nat.lt_of_succ_lt_succ hb)) ?_
      fun _ => id
    · show s.height + 1 + k < maxHeight
      omega
    · rintro e t ⟨hheight, ht, hd'⟩
      refine ⟨?_, ht, hd'⟩
      rw [hheight, Expr.height, hright, Nat.max_zero]
      omega

/-- A chain is on top of its first operand. -/
theorem climbs_chain (hn : n < 6) (hleaf : ∀ h < maxHeight, Climbs (n + 1) room h 0 [leaf] r)
    {base : Nat} (hfirst : Climbs (n + 1) room h base ts r) (hk : h + k < maxHeight) :
    Climbs n room h (base + k) (ts ++ links n k) (chain n r) := by
  intro s l rest hs hl hd hh
  obtain ⟨l', us, he, hl'⟩ := exists_links_cons hn k rest hl
  rw [List.append_assoc, he] at hs
  refine .bind (hfirst s l' us hs hl' hd hh) ?_
  rintro first _ ⟨rfl, rfl⟩
  subst hh
  refine .get (.bind (meets_chainFrom_links hn hleaf hl he.symm hd hk (by omega)) ?_)
  rintro e t ⟨hheight, ht, hd'⟩
  refine .modify (.pure ⟨hheight, ?_⟩)
  cases t
  simp_all

theorem climbs_levelled_leaf (room' : Nat) (hn : n ≤ 6) : ∀ h < maxHeight,
    Climbs n (room + 1) h 0 [leaf] (levelled (operand (room' + 1)) n) := by
  refine levelled_induction (P := fun n r => ∀ h < maxHeight, Climbs n (room + 1) h 0 [leaf] r)
    (fun h hh => climbs_operand_leaf room' hh) (fun n hn ih h hh => ?_) n hn
  exact climbs_chain (k := 0) hn ih (ih h hh) hh

/-- A chain for each of the tightest levels around an operand. -/
def slope (ts : List Lexeme) (k : Nat) : Nat → List Lexeme
  | 0 => ts
  | j + 1 => slope ts k j ++ links (5 - j) k

theorem climbs_slope {base room' : Nat}
    (hfirst : Climbs 6 (room + 1) h base ts (operand (room' + 1))) (hk : h + k < maxHeight)
    (hn : n ≤ 6) : Climbs n (room + 1) h (base + (6 - n) * k) (slope ts k (6 - n))
      (levelled (operand (room' + 1)) n) := by
  induction hn using Nat.decreasingInduction with
  | self =>
    rw [Nat.sub_self, Nat.zero_mul]
    exact hfirst
  | of_succ n hn ih =>
    have hstep : 6 - n = 6 - (n + 1) + 1 := by omega
    have hlevel : 5 - (6 - (n + 1)) = n := by omega
    rw [levelled_of_lt hn, hstep, slope, hlevel, Nat.succ_mul, ← Nat.add_assoc]
    exact climbs_chain hn (climbs_levelled_leaf room' hn) ih hk

/-! ### Summits -/

/-- A call around a summit that is one level deeper, and chains around the call. -/
def summit : Nat → Nat → List Lexeme
  | 0, _ => []
  | room + 1, h =>
    slope (⟨.identifier "f", .start⟩ :: ⟨.punctuation .openParen, .start⟩ :: summit room (h + 1) ++
      [⟨.punctuation .closeParen, .start⟩]) (511 - h) 6

theorem exists_summit_cons (room h : Nat) : ∃ us, summit (room + 1) h =
    ⟨.identifier "f", .start⟩ :: ⟨.punctuation .openParen, .start⟩ :: us :=
  ⟨_, rfl⟩

theorem meets_call {inner : Parser Expr} {s : Cursor} {name : String} {i j : Location}
    {us rest : List Lexeme}
    (hs : s.lexemes = ⟨.identifier name, i⟩ :: ⟨.punctuation .openParen, j⟩ :: us)
    (hargs : (parenthesized inner).Meets { s with lexemes := ⟨.punctuation .openParen, j⟩ :: us }
      (fun es t => Expr.heightAll es = n ∧ t = { s with lexemes := rest }) fun _ => False) :
    (primary inner).Meets s (fun e t => e.height = n + 1 ∧ t = { s with lexemes := rest })
      fun _ => False := by
  refine .get ?_
  rw [Cursor.token_of_lexemes hs]
  refine .advance (.get ?_)
  rw [Cursor.advance_of_lexemes hs (by simp)]
  split
  · refine .bind hargs ?_
    rintro es t ⟨hes, ht⟩
    exact .pure ⟨congrArg (· + 1) hes, ht⟩
  · next hne => exact absurd rfl hne

theorem meets_parenthesized {inner : Parser Expr} {s : Cursor} {i j : Location} {l : Lexeme}
    {rest : List Lexeme}
    (hs : s.lexemes = ⟨.punctuation .openParen, i⟩ :: ts ++
      ⟨.punctuation .closeParen, j⟩ :: l :: rest)
    (hts : ts = [] ∧ n = 0 ∨ Climbs 0 room h n ts inner ∧
      ∃ t us, ts = t :: us ∧ t.token ≠ .punctuation .closeParen)
    (hd : s.depth + room = maxNesting) (hh : s.height = h) :
    (parenthesized inner).Meets s
      (fun es t => Expr.heightAll es = n ∧ t = { s with lexemes := l :: rest }) fun _ => False := by
  refine .bind (.expect_of_lexemes hs (by simp)) ?_
  rintro - _ rfl
  refine .get ?_
  rcases hts with ⟨rfl, rfl⟩ | ⟨hinner, t, us, rfl, ht⟩
  · split
    · rw [pure_bind]
      refine .bind (.expect_of_lexemes rfl (by simp)) ?_
      rintro - _ rfl
      exact .pure ⟨rfl, rfl⟩
    · next hne => exact absurd rfl hne
  · split
    · next h => exact absurd h ht
    refine .bind (Q := fun es u => Expr.heightAll es = n ∧
      u = { s with lexemes := ⟨.punctuation .closeParen, j⟩ :: l :: rest }) ?_ ?_
    · refine .get (.bind (hinner _ _ (l :: rest) rfl (stops_punctuation nofun) hd hh) ?_)
      rintro e _ ⟨he, rfl⟩
      exact .get (.pure ⟨(Nat.max_zero e.height).trans he, rfl⟩)
    · rintro es _ ⟨hes, rfl⟩
      refine .bind (.expect_of_lexemes rfl (by simp)) ?_
      rintro - _ rfl
      exact .pure ⟨hes, rfl⟩

theorem climbs_operand_summit (hinner : room = 0 ∨ Climbs 0 room (h + 1) (peak room (h + 1))
      (summit room (h + 1)) (expression room)) (hh : h < maxHeight) :
    Climbs 6 (room + 1) h (peak room (h + 1) + 1)
      (⟨.identifier "f", .start⟩ :: ⟨.punctuation .openParen, .start⟩ :: summit room (h + 1) ++
        [⟨.punctuation .closeParen, .start⟩]) (operand (room + 1)) := by
  have hargs : summit room (h + 1) = [] ∧ peak room (h + 1) = 0 ∨
      Climbs 0 room (h + 1) (peak room (h + 1)) (summit room (h + 1)) (expression room) ∧
        ∃ t us, summit room (h + 1) = t :: us ∧ t.token ≠ .punctuation .closeParen := by
    cases room with
    | zero => exact .inl ⟨rfl, rfl⟩
    | succ room =>
      obtain ⟨us, hus⟩ := exists_summit_cons room (h + 1)
      exact .inr ⟨hinner.resolve_left (Nat.succ_ne_zero room), _, _, hus, nofun⟩
  intro s l rest hs hl hd hh'
  rw [List.append_assoc] at hs
  refine .nested (fun _ _ => .get ?_) (by omega)
  rw [Cursor.token_of_lexemes (s := { s with depth := s.depth + 1, height := s.height + 1 }) hs]
  refine .mono (meets_call (s := { s with depth := s.depth + 1, height := s.height + 1 }) hs
    (meets_parenthesized rfl hargs ?_ ?_)) ?_ fun _ => id
  · show s.depth + 1 + room = maxNesting
    omega
  · rw [hh']
  · rintro e _ ⟨he, rfl⟩
    exact ⟨he, rfl⟩

theorem climbs_summit : ∀ {room h : Nat}, room + h < maxHeight →
    Climbs 0 (room + 1) h (peak (room + 1) h) (summit (room + 1) h) (expression (room + 1))
  | room, h, hh => by
    have hinner : room = 0 ∨ Climbs 0 room (h + 1) (peak room (h + 1)) (summit room (h + 1))
        (expression room) := by
      cases room with
      | zero => exact .inl rfl
      | succ room => exact .inr (climbs_summit (by omega))
    have hcall := climbs_operand_summit hinner (by omega)
    exact climbs_slope hcall (k := 511 - h) (by unfold maxHeight at *; omega) (Nat.zero_le 6)

/-- A call that climbs is a program of one statement. -/
theorem meets_program_call {s : Cursor} {name : String} {i j k l : Location} {us : List Lexeme}
    (hs : s.lexemes = ⟨.identifier name, i⟩ :: ⟨.punctuation .openParen, j⟩ :: us ++
      [⟨.punctuation .semicolon, k⟩, ⟨.endOfInput, l⟩])
    (hcall : Climbs 0 maxNesting 0 n (⟨.identifier name, i⟩ :: ⟨.punctuation .openParen, j⟩ :: us)
      (expression maxNesting))
    (hd : s.depth = 0) (hh : s.height = 0) :
    program.Meets s (fun p _ => ∃ x ∈ p.placed, x.2.height = n) fun _ => False := by
  have hlength : s.lexemes.length = us.length + 2 + 2 := by simp [hs]
  refine .get ?_
  rw [hlength]
  refine .get ?_
  rw [Cursor.token_of_lexemes hs, if_neg nofun]
  refine .bind (Q := fun d t => (∃ x ∈ d.placed, x.2.height = n) ∧
    t.lexemes = [⟨.endOfInput, l⟩]) ?_ ?_
  · refine .get ?_
    rw [Cursor.token_of_lexemes hs, if_neg nofun]
    refine .map (.get ?_)
    rw [Cursor.token_of_lexemes hs, Cursor.nextToken_of_lexemes hs]
    dsimp only
    rw [if_neg nofun]
    refine .bind (hcall s _ _ hs (stops_punctuation nofun) (by rw [hd]; rfl) hh) ?_
    rintro e _ ⟨he, rfl⟩
    refine .bind (.expect_of_lexemes rfl (by simp)) ?_
    rintro - _ rfl
    exact .pure ⟨⟨(0, e), List.mem_singleton_self _, he⟩, rfl⟩
  · rintro d t ⟨⟨x, hx, hheight⟩, ht⟩
    refine .bind (Q := fun _ _ => True) (.get ?_) ?_
    · rw [Cursor.token_of_lexemes ht]
      exact .pure trivial
    · rintro ds u -
      exact .pure ⟨x, List.mem_append_left _ hx, hheight⟩

end Parser

namespace Program

theorem exists_peak :
    ∃ ls p, ofLexemes ls = .ok p ∧ ∃ x ∈ p.placed, x.2.height = Parser.peak maxNesting 0 := by
  obtain ⟨us, hus⟩ := Parser.exists_summit_cons 63 0
  have hcall := @Parser.climbs_summit 63 0 (by decide)
  rw [hus] at hcall
  have hmeets := Parser.meets_program_call (s := { lexemes := _ }) (k := .start) (l := .start) rfl
    hcall rfl rfl
  obtain ⟨p, t, hp, hx⟩ := hmeets.exists_ok
  exact ⟨_, p, by rw [ofLexemes, hp], hx⟩

theorem peak_le_peak (n : Nat) : Parser.peak (maxNesting - n) n ≤ Parser.peak maxNesting 0 := by
  -- every block leaves a level less to open and more of the height in use
  induction n with
  | zero => exact Nat.le_refl _
  | succ n ih =>
    refine Nat.le_trans ?_ ih
    by_cases hn : n < maxNesting
    · rw [show maxNesting - n = maxNesting - (n + 1) + 1 by omega, Parser.peak]
      omega
    · rw [show maxNesting - (n + 1) = 0 by omega]
      exact Nat.zero_le _

/-- The greatest height of an expression that is read, and not the limit that is meant. -/
theorem greatest_height :
    IsGreatest {n | ∃ ls p, ofLexemes ls = .ok p ∧ ∃ x ∈ p.placed, x.2.height = n} 184192 := by
  have hpeak : Parser.peak maxNesting 0 = 184192 := by decide +kernel
  rw [← hpeak]
  refine ⟨exists_peak, ?_⟩
  rintro n ⟨ls, p, hp, x, hx, rfl⟩
  exact Nat.le_trans (height_le hp x hx) (peak_le_peak x.1)

end Program

end Labyrinth
