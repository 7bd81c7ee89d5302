import Labyrinth.Proofs.Parsing.Nesting
import Labyrinth.Proofs.Parsing.Recast

/-!
# Tokens behind a program

Each reader does in front of a sequel what it does in front of the end of input (`Parser.recast_decl`), and a
declaration ends with a token of its own. So the declarations of a program are read in front of further tokens
as well, and what stands there is read as if it stood alone (`Program.ofLexemes_append`).
-/

namespace Labyrinth

open Grammar Sequel

namespace Parser

variable {E : Sequel} {α β : Type} {f : α → β} {p q : Prop} {s : Cursor}

/-! ### Lists -/

/-- The number of tokens that are left goes down from item to item, so bounds are not reached. -/
theorem recast_sepByComma {item : Parser α} {item' : Parser β} {D : List Lexeme → α → Prop}
    (hitem : ∀ t, E.Before t.lexemes → Recast E f False False item item' t)
    (hsound : ∀ {t : Cursor}, Scanned t.lexemes → item.Sound t D) (hs : E.Before s.lexemes) :
    Recast E (List.map f) False False (sepByComma item) (sepByComma item') s := by
  have hgo : ∀ (bound bound' : Nat) (s : Cursor), E.Before s.lexemes → s.lexemes.length ≤ bound →
      (E.extend s).lexemes.length ≤ bound' →
      Recast E (List.map f) False False (sepByComma.go item bound) (sepByComma.go item' bound') s := by
    intro bound
    induction bound with
    | zero =>
      intro bound' s hs hle _
      exact absurd (List.length_eq_zero_iff.mp (Nat.le_zero.mp hle)) hs.ne_nil
    | succ bound ih =>
      intro bound' s hs hle hle'
      cases bound' with
      | zero => exact absurd (List.length_eq_zero_iff.mp (Nat.le_zero.mp hle')) (E.swap_ne_nil _)
      | succ bound' =>
        refine .bind_of_meets (hitem s hs) (hsound hs.scanned) ?_
        rintro a t ht ⟨ts, hts, -⟩
        refine .look ht fun t' ht' => ?_
        rw [ht'.token]
        split
        · next hcomma =>
          have hne : t.token ≠ .endOfInput := hcomma ▸ nofun
          have hlen := hts.length
          have hadvance := ht.length_advance hne
          have hshorter := hs.length_extend_lt ht.advance (by omega)
          refine .advance ht hne (.start ?_)
          exact .bind (ih bound' _ ht.advance (by omega) (by omega)) fun as u hu => .pure hu rfl
        · exact .pure ht rfl
  exact .get (hgo _ _ s hs (Nat.le_refl _) (Nat.le_refl _))

theorem recast_parenthesized {item : Parser α} {item' : Parser β} {D : List Lexeme → α → Prop}
    (hitem : ∀ t, E.Before t.lexemes → Recast E f False False item item' t)
    (hsound : ∀ {t : Cursor}, Scanned t.lexemes → item.Sound t D) (hs : E.Before s.lexemes) :
    Recast E (List.map f) p True (parenthesized item) (parenthesized item') s := by
  refine .bind (.expectMark hs _) fun _ t ht => .look ht fun t' ht' => ?_
  rw [ht'.token]
  split
  · have hnone : Recast E (List.map f) False False (Pure.pure []) (Pure.pure []) t := .pure ht rfl
    exact hnone.bind fun as u hu => .bind (.expectMark hu _) fun _ v hv => .pure hv rfl
  · exact .bind (recast_sepByComma hitem hsound ht) fun as u hu =>
      .bind (.expectMark hu _) fun _ v hv => .pure hv rfl

/-! ### Expressions -/

theorem recast_literal (hs : E.Before s.lexemes) (raw : String) (i : Location) :
    Recast E (Expr.move E.place) p p (literal raw i) (literal raw (E.place i)) s := by
  unfold literal
  split
  · split
    · exact .pure hs rfl
    · exact .throw rfl
  · split
    · exact .pure hs rfl
    · exact .throw rfl

section

variable {D : List Lexeme → Expr → Prop}

theorem recast_chainFrom (level : Nat) {operand : Parser Expr}
    (hop : ∀ t, E.Before t.lexemes → Recast E (Expr.move E.place) False False operand operand t) :
    ∀ (bound : Nat) (left : Expr) (s : Cursor), E.Before s.lexemes →
      Recast E (Expr.move E.place) False False (chainFrom level operand bound left)
        (chainFrom level operand bound (left.move E.place)) s
  | 0, left, s, hs => .pure hs rfl
  | bound + 1, left, s, hs => by
    refine .look hs fun s' hs' => ?_
    rw [hs'.token]
    split
    · exact .pure hs rfl
    · next op hop' =>
      have ht := (BinaryOp.ofToken?_eq_some.mp hop').2
      have hne : s.token ≠ .endOfInput := ht ▸ nofun
      obtain rfl := hs'.eq hne
      have hheight : (E.extend s).height = s.height := rfl
      rw [hheight]
      by_cases hhigh : maxHeight ≤ s.height
      · simp only [if_pos hhigh]
        have hfail : Recast E (Expr.move E.place) False False (fail .tooDeep) (fail .tooDeep) s :=
          .fail hs _
        exact hfail
      · simp only [if_neg hhigh]
        refine .set (t := { s with height := s.height + 1 }) rfl (.advance hs hne (.start ?_))
        have hs : E.Before { s with height := s.height + 1 }.lexemes := hs
        refine .bind (hop _ hs.advance) fun right t ht => ?_
        have hrest := recast_chainFrom level hop bound (.binary left.loc op left right) t ht
        have hloc : (left.move E.place).loc = E.place left.loc := Expr.loc_move left
        rw [Expr.move, ← hloc] at hrest
        exact hrest

theorem recast_chain {level : Nat} {operand : Parser Expr}
    (hop : ∀ t, E.Before t.lexemes → Recast E (Expr.move E.place) False False operand operand t)
    (hs : E.Before s.lexemes) :
    Recast E (Expr.move E.place) False False (chain level operand) (chain level operand) s := by
  refine .bind (hop s hs) fun first t ht => .get ?_
  refine .bind (recast_chainFrom level hop _ first t ht) fun whole u hu => ?_
  exact .bind (.count hu rfl rfl) fun _ v hv => .pure hv rfl

theorem recast_levelled {operand : Parser Expr}
    (hop : ∀ t, E.Before t.lexemes → Recast E (Expr.move E.place) False False operand operand t)
    {n : Nat} (hn : n ≤ 6) : ∀ s, E.Before s.lexemes →
      Recast E (Expr.move E.place) False False (levelled operand n) (levelled operand n) s :=
  levelled_induction (P := fun _ r => ∀ s, E.Before s.lexemes →
    Recast E (Expr.move E.place) False False r r s) hop (fun _ _ ih _ hs => recast_chain ih hs) n hn

theorem recast_primary {inner : Parser Expr}
    (hinner : ∀ t, E.Before t.lexemes → Recast E (Expr.move E.place) False False inner inner t)
    (hsound : ∀ {t : Cursor}, Scanned t.lexemes → inner.Sound t D) (hs : E.Before s.lexemes) :
    Recast E (Expr.move E.place) False False (primary inner) (primary inner) s := by
  refine .look hs fun s' hs' => ?_
  rw [hs'.token, hs'.loc]
  split
  · next ht => exact .advance hs (ht ▸ nofun) (.stop (recast_literal hs.advance _ _))
  · next ht => exact .advance hs (ht ▸ nofun) (.stop (.pure hs.advance rfl))
  · next name ht =>
    refine .advance hs (ht ▸ nofun) (.start (.look hs.advance fun t' ht' => ?_))
    rw [ht'.token]
    split
    · refine .stop (.bind (recast_parenthesized hinner hsound hs.advance) fun args u hu => .pure hu ?_)
      rw [Expr.move, Expr.moveAll_eq_map]
    · exact .pure hs.advance rfl
  · next ht =>
    refine .advance hs (ht ▸ nofun) (.start (.bind (hinner _ hs.advance) fun e t ht => ?_))
    refine .stop (.bind (.expectMark ht _) fun _ u hu => .pure hu ?_)
    exact Expr.move_relocate s.loc e
  · exact .unexpected hs _

end

theorem recast_operand : ∀ (room : Nat) (s : Cursor), E.Before s.lexemes →
    Recast E (Expr.move E.place) False False (operand room) (operand room) s
  | 0, s, hs => .fail hs _
  | room + 1, s, hs => by
    refine .nested hs fun t ht => .look ht fun t' ht' => ?_
    rw [ht'.token, ht'.loc]
    split
    · next op hop =>
      have htoken := UnaryOp.ofToken?_eq_some.mp hop
      refine .advance ht (htoken ▸ nofun) (.start ?_)
      exact .bind (recast_operand room _ ht.advance) fun e u hu => .pure hu rfl
    · exact recast_primary (recast_levelled (recast_operand room) (Nat.zero_le 6))
        (sound_expression room) ht

theorem recast_expression (room : Nat) (hs : E.Before s.lexemes) :
    Recast E (Expr.move E.place) False False (expression room) (expression room) s :=
  recast_levelled (recast_operand room) (Nat.zero_le 6) s hs

/-! ### Statements -/

theorem recast_declaration (room : Nat) (hs : E.Before s.lexemes) :
    Recast E (Stmt.move E.place) p True (declaration room) (declaration room) s := by
  refine .look hs fun s' hs' => ?_
  rw [hs'.loc]
  refine .bind (.expectType hs) fun ty t ht => .bind (.expectName ht _) fun name u hu => ?_
  refine .bind (.expect hu nofun) fun _ v hv => .bind (.start (recast_expression room hv)) fun init w hw => ?_
  exact .bind (.expectMark hw _) fun _ x hx => .pure hx rfl

theorem recast_condition (room : Nat) (hs : E.Before s.lexemes) :
    Recast E (Expr.move E.place) p True (condition room) (condition room) s :=
  .bind (.expectMark hs _) fun _ _ ht => .bind (.start (recast_expression room ht)) fun _ _ hu =>
    .bind (.expectMark hu _) fun _ _ hv => .pure hv rfl

theorem recast_terminated (room : Nat) {k k' : Expr → Stmt} (hs : E.Before s.lexemes)
    (hk : ∀ e, (k e).move E.place = k' (e.move E.place)) :
    Recast E (Stmt.move E.place) p True
      (do let value ← expression room; expectMark .semicolon; return k value)
      (do let value ← expression room; expectMark .semicolon; return k' value) s :=
  .bind (.start (recast_expression room hs)) fun e _ ht => .bind (.expectMark ht _) fun _ _ hu =>
    .pure hu (hk e)

/-- Behind a name alone there is no room for a semicolon. -/
theorem not_terminated {room : Nat} {k : Expr → Stmt} (hs : E.Before s.lexemes)
    (hnext : s.nextToken = .endOfInput) :
    (do let value ← expression room; expectMark .semicolon; return k value : Parser Stmt).Meets s
      (fun _ _ => False) fun _ => True := by
  refine .mono (sound_terminated hs.scanned) ?_ fun _ => id
  rintro _ t ⟨_, hts, us, e, i, he, rfl, -⟩
  obtain ⟨l, us, rfl, -⟩ := he.exists_first
  have hlen := hts.length
  have hpos := List.length_pos_iff.mpr hts.scanned.ne_nil
  have hshort : s.lexemes.length ≤ 2 := by
    rcases hs.cases_cursor with hs | ⟨l, ls, hs, -, hls⟩
    · simp [hs]
    · cases hls with
      | last => simp [hs]
      | cons hl _ =>
        rw [Cursor.nextToken_of_lexemes hs] at hnext
        rw [hnext] at hl
        cases hl
  simp only [List.length_append, List.length_cons] at hlen
  omega

theorem recast_guarded (room : Nat) {block : Parser (List Stmt)} {k k' : Expr → List Stmt → Stmt}
    (hblock : ∀ t, E.Before t.lexemes →
      Recast E (List.map (Stmt.move E.place)) False True block block t)
    (hk : ∀ e ss, (k e ss).move E.place = k' (e.move E.place) (ss.map (Stmt.move E.place)))
    (hs : E.Before s.lexemes) :
    Recast E (Stmt.move E.place) p True
      (do let test ← condition room; return k test (← block))
      (do let test ← condition room; return k' test (← block)) s :=
  .bind (recast_condition room hs) fun e t ht => .bind (.start (hblock t ht)) fun body _ hu =>
    .pure hu (hk e body)

theorem recast_statement (room : Nat) {block : Parser (List Stmt)}
    (hblock : ∀ t, E.Before t.lexemes →
      Recast E (List.map (Stmt.move E.place)) False True block block t)
    (hs : E.Before s.lexemes) :
    Recast E (Stmt.move E.place) False True (statement room block) (statement room block) s := by
  refine .look hs fun s' hs' => ?_
  rw [hs'.token, hs'.loc]
  split
  · exact recast_declaration room hs
  · exact recast_declaration room hs
  · exact recast_declaration room hs
  · next ht =>
    refine .advance hs (ht ▸ nofun) (recast_guarded room hblock (fun e ss => ?_) hs.advance)
    rw [Stmt.move, Stmt.moveAll_eq_map]
  · next ht =>
    refine .advance hs (ht ▸ nofun) (recast_guarded room hblock (fun e ss => ?_) hs.advance)
    rw [Stmt.move, Stmt.moveAll_eq_map]
  · next ht =>
    refine .advance hs (ht ▸ nofun) (.look hs.advance fun t' ht' => ?_)
    rw [ht'.token]
    split
    · have hnone : Recast E (Option.map (Expr.move E.place)) False False (Pure.pure none)
          (Pure.pure none) s.advance := .pure hs.advance rfl
      exact hnone.bind fun value u hu => .bind (.expectMark hu _) fun _ v hv => .pure hv rfl
    · have hsome : Recast E (Option.map (Expr.move E.place)) False False (some <$> expression room)
          (some <$> expression room) s.advance := .map (recast_expression room hs.advance) fun _ => rfl
      exact hsome.bind fun value u hu => .bind (.expectMark hu _) fun _ v hv => .pure hv rfl
  · refine .bind (hblock s hs) fun body t ht => .pure ht ?_
    rw [Stmt.move, Stmt.moveAll_eq_map]
  · next name ht =>
    have hne : s.token ≠ .endOfInput := ht ▸ nofun
    obtain rfl := hs'.eq hne
    by_cases hnext : E.Ends ∨ s.nextToken ≠ .endOfInput
    · rw [nextToken_extend hs hnext]
      split
      · next hassign =>
        have htoken := Cursor.token_advance (s := s) (hassign ▸ nofun)
        refine .advance hs hne (.advance hs.advance (htoken ▸ hassign ▸ nofun) ?_)
        exact recast_terminated room hs.advance.advance fun _ => rfl
      · exact recast_terminated room hs fun _ => rfl
    · obtain ⟨hends, hend⟩ := not_or.mp hnext
      have hend := not_not.mp hend
      rw [if_neg (hend ▸ nofun)]
      exact .of_stuck (not_terminated hs hend) hends
  · exact recast_terminated room hs fun _ => rfl

theorem recast_statements {stmt : Parser Stmt}
    (hstmt : ∀ t, E.Before t.lexemes → Recast E (Stmt.move E.place) False True stmt stmt t)
    (hsound : ∀ {t : Cursor}, Scanned t.lexemes → stmt.Sound t Statement) (hs : E.Before s.lexemes) :
    Recast E (List.map (Stmt.move E.place)) False False (statements stmt) (statements stmt) s := by
  have hgo : ∀ (bound bound' : Nat) (s : Cursor), E.Before s.lexemes → s.lexemes.length ≤ bound →
      (E.extend s).lexemes.length ≤ bound' →
      Recast E (List.map (Stmt.move E.place)) False False (statements.go stmt bound)
        (statements.go stmt bound') s := by
    intro bound
    induction bound with
    | zero =>
      intro bound' s hs hle _
      exact absurd (List.length_eq_zero_iff.mp (Nat.le_zero.mp hle)) hs.ne_nil
    | succ bound ih =>
      intro bound' s hs hle hle'
      cases bound' with
      | zero => exact absurd (List.length_eq_zero_iff.mp (Nat.le_zero.mp hle')) (E.swap_ne_nil _)
      | succ bound' =>
        refine .look hs fun s' hs' => ?_
        rw [hs'.token]
        split
        · exact .pure hs rfl
        · exact .unexpected hs _
        · refine .bind_of_meets (hstmt s hs) (hsound hs.scanned) ?_
          rintro a t ht ⟨ts, hts, ha⟩
          have hlen := hts.length
          have hpos := List.length_pos_iff.mpr ha.ne_nil
          have hshorter := hs.length_extend_lt ht (by omega)
          exact .start (.bind (ih bound' t ht (by omega) (by omega)) fun ss u hu => .pure hu rfl)
  exact .get (hgo _ _ s hs (Nat.le_refl _) (Nat.le_refl _))

theorem recast_block : ∀ (room : Nat) (s : Cursor), E.Before s.lexemes →
    Recast E (List.map (Stmt.move E.place)) False True (block room) (block room) s
  | 0, s, hs => .bind (.expectMark hs _) fun _ t ht => .fail ht _
  | room + 1, s, hs => by
    refine .bind (.expectMark hs _) fun _ t ht => .bind (.enter ht) fun _ u hu => ?_
    have hstmt := fun t ht => recast_statement (s := t) room (recast_block room) ht
    refine .bind (.start (recast_statements hstmt (sound_statement (sound_block room)) hu))
      fun body v hv => ?_
    exact .bind (.count hv rfl rfl) fun _ w hw => .bind (.expectMark hw _) fun _ x hx =>
      .pure hx rfl

/-! ### Declarations -/

theorem recast_param (hs : E.Before s.lexemes) :
    Recast E (Param.move E.place) p True param param s := by
  refine .bind (.expectType hs) fun ty t ht => .look ht fun t' ht' => ?_
  rw [ht'.loc]
  exact .bind (.expectName ht _) fun name u hu => .pure hu rfl

theorem recast_function (hs : E.Before s.lexemes) :
    Recast E (Function.move E.place) p True function function s := by
  refine .look hs fun s' hs' => ?_
  rw [hs'.loc]
  refine .bind (.expect hs nofun) fun _ t ht => .bind (.expectType ht) fun ret u hu => ?_
  refine .bind (.expectName hu _) fun name v hv => ?_
  have hparam (t : Cursor) (ht : E.Before t.lexemes) :
      Recast E (Param.move E.place) False False param param t := .stop (recast_param ht)
  refine .bind (recast_parenthesized hparam sound_param hv) fun params w hw => ?_
  refine .bind (.start (recast_block maxNesting w hw)) fun body x hx => .pure hx ?_
  rw [Function.move, Stmt.moveAll_eq_map]
  rfl

theorem recast_decl (hs : E.Before s.lexemes) :
    Recast E (Decl.move E.place) False True decl decl s := by
  refine .look hs fun s' hs' => ?_
  rw [hs'.token]
  split
  · exact .map (recast_function hs) fun _ => rfl
  · exact .map (recast_statement maxNesting (recast_block maxNesting) hs) fun _ => rfl

/-! ### Programs -/

theorem recast_go : ∀ (bound bound' : Nat) (s : Cursor), E.Before s.lexemes →
    s.lexemes.length ≤ bound → (E.extend s).lexemes.length ≤ bound' →
      Recast E (List.map (Decl.move E.place)) False False (program.go bound) (program.go bound') s
  | 0, _, s, hs, hle, _ => absurd (List.length_eq_zero_iff.mp (Nat.le_zero.mp hle)) hs.ne_nil
  | _, 0, s, _, _, hle' => absurd (List.length_eq_zero_iff.mp (Nat.le_zero.mp hle')) (E.swap_ne_nil _)
  | bound + 1, bound' + 1, s, hs, hle, hle' => by
    refine .look hs fun s' hs' => ?_
    rw [hs'.token]
    split
    · exact .pure hs rfl
    · refine .bind_of_meets (recast_decl hs) (sound_decl hs.scanned) ?_
      rintro d t ht ⟨ts, hts, hd⟩
      have hlen := hts.length
      have hpos := List.length_pos_iff.mpr hd.ne_nil
      have hshorter := hs.length_extend_lt ht (by omega)
      exact .start (.bind (recast_go bound bound' t ht (by omega) (by omega)) fun ds u hu => .pure hu rfl)

/-- What a reader gives, without the cursor. -/
def outcome {ε σ α : Type} : EStateM.Result ε σ α → Except ε α
  | .ok a _ => .ok a
  | .error e _ => .error e

theorem program_eq_go (s : Cursor) : program s = program.go s.lexemes.length s := rfl

namespace Recast

/-- Two runs in front of an end of input. -/
theorem outcome_eq {r : Parser α} {r' : Parser β} (h : Recast E f p q r r' s) (hends : E.Ends) :
    outcome (r' (E.extend s)) = ((outcome (r s)).map f).mapError (SyntaxError.move E.place) := by
  unfold Recast Meets at h
  split at h
  · next a t hr =>
    obtain ⟨-, hr'⟩ := h.2 (.inr (.inl hends))
    rw [hr, hr']
    rfl
  · next e t hr =>
    obtain ⟨u, hr'⟩ := h hends
    rw [hr, hr']
    rfl

end Recast

theorem outcome_go_of_end {bound : Nat} (hend : s.token = .endOfInput) :
    outcome (program.go (bound + 1) s) = .ok [] := by
  show outcome ((if s.token = .endOfInput then Pure.pure [] else _ : Parser Program) s) = _
  rw [if_pos hend]
  rfl

theorem outcome_go_succ {bound : Nat} (hne : s.token ≠ .endOfInput) :
    outcome (program.go (bound + 1) s) = match decl s with
      | .ok d t => (outcome (program.go bound t)).map (d :: ·)
      | .error e _ => .error e := by
  show outcome ((if s.token = .endOfInput then Pure.pure [] else
    decl >>= fun d => program.go bound >>= fun ds => Pure.pure (d :: ds) : Parser Program) s) = _
  rw [if_neg hne]
  simp only [Bind.bind, EStateM.bind]
  cases decl s with
  | error e t => rfl
  | ok d t =>
    simp only
    cases program.go bound t <;> rfl

theorem decl_restores {d : Decl} {t : Cursor} (h : decl s = .ok d t) :
    t.depth = s.depth ∧ t.height = s.height := by
  have hexpr (n : Nat) : Keeps s.lexemes n (expression (maxNesting - n)) fun _ => True :=
    .mono (keeps_expression_nesting _ n) fun _ _ => trivial
  obtain ⟨hrestored, -⟩ := (keeps_decl (P := fun _ => True) hexpr s .refl (Nat.zero_le _)).ok h
  exact ⟨hrestored.depth, hrestored.height⟩

/-- Declarations are read in front of the sequel as they are in front of the end of input, and then what the
sequel is. -/
theorem outcome_go_extend : ∀ (bound bound' : Nat) (s : Cursor) {p : Program}, E.Before s.lexemes →
    s.depth = 0 → s.height = 0 → outcome (program.go bound s) = .ok p → s.lexemes.length ≤ bound →
    (E.extend s).lexemes.length ≤ bound' →
    ∃ k, E.lexemes.length ≤ k ∧ outcome (program.go bound' (E.extend s)) =
      (outcome (program.go k { lexemes := E.lexemes })).map (p.move E.place ++ ·)
  | 0, _, s, _, hs, _, _, _, hle, _ =>
    absurd (List.length_eq_zero_iff.mp (Nat.le_zero.mp hle)) hs.ne_nil
  | _, 0, s, _, _, _, _, _, _, hle' =>
    absurd (List.length_eq_zero_iff.mp (Nat.le_zero.mp hle')) (E.swap_ne_nil _)
  | bound + 1, bound' + 1, s, p, hs, hd, hh, hp, hle, hle' => by
    rcases hs.cases_cursor with hlast | ⟨l, ls, hls, hl, -⟩
    · have hext : E.extend s = { lexemes := E.lexemes } := by
        rw [extend, hlast, hd, hh]
        rfl
      rw [outcome_go_of_end (Cursor.token_of_lexemes hlast)] at hp
      cases hp
      rw [hext] at hle' ⊢
      refine ⟨bound' + 1, hle', ?_⟩
      cases outcome (program.go (bound' + 1) { lexemes := E.lexemes }) <;> rfl
    · have hne := token_ne_endOfInput hls hl
      have htoken := (extend_of_inside hs (.inr hne)).1
      have hdecl := recast_decl hs
      have hsound := sound_decl hs.scanned
      rw [outcome_go_succ hne] at hp
      rw [outcome_go_succ (htoken ▸ hne)]
      unfold Recast Meets at hdecl
      unfold Sound Meets at hsound
      split at hp
      · next d t hread =>
        rw [hread] at hdecl hsound
        obtain ⟨ht, hdecl⟩ := hdecl
        obtain ⟨ts, hts, hd'⟩ := hsound
        obtain ⟨hdepth, hheight⟩ := decl_restores hread
        obtain ⟨ds, hds, rfl⟩ := Except.map_eq_ok.mp hp
        have hlen := hts.length
        have hpos := List.length_pos_iff.mpr hd'.ne_nil
        have hshorter := hs.length_extend_lt ht (by omega)
        obtain ⟨k, hk, hgo⟩ := outcome_go_extend bound bound' t ht (hdepth.trans hd)
          (hheight.trans hh) hds (by omega) (by omega)
        refine ⟨k, hk, ?_⟩
        rw [(hdecl (.inl trivial)).2]
        simp only [hgo]
        cases outcome (program.go k { lexemes := E.lexemes }) <;> rfl
      · cases hp

end Parser

theorem Scanned.move {ls : List Lexeme} (h : Scanned ls) (place : Location → Location) :
    Scanned (ls.map (Lexeme.move place)) := by
  induction h with
  | last => exact .last
  | cons hl _ ih => exact .cons hl ih

namespace Program

variable {ls : List Lexeme} {place : Location → Location} {bound : Nat}

theorem ofLexemes_eq_outcome (ls : List Lexeme) :
    ofLexemes ls = Parser.outcome (Parser.program { lexemes := ls }) := by
  unfold ofLexemes
  cases Parser.program { lexemes := ls } <;> rfl

/-- The bound on the number of declarations is not reached, and if all tokens are at other places, then so is
what is read. -/
theorem outcome_go_move (hls : Scanned ls) (hle : ls.length ≤ bound) :
    Parser.outcome (Parser.program.go bound { lexemes := ls.map (Lexeme.move place) }) =
      ((ofLexemes ls).map (Program.move place)).mapError (SyntaxError.move place) := by
  obtain ⟨i, hbefore⟩ := exists_before hls
  let E : Sequel := { last := i, place, lexemes := [⟨.endOfInput, place i⟩], scanned := .last }
  have hends : E.Ends := rfl
  have hbefore : E.Before ls := hbefore E rfl
  have hswap : E.extend { lexemes := ls } = { lexemes := ls.map (Lexeme.move place) } := by
    rw [extend, hbefore.swap_of_ends hends]
  have hlength : (E.extend { lexemes := ls }).lexemes.length ≤ bound := by
    rwa [hswap, List.length_map]
  have hgo := (Parser.recast_go ls.length bound { lexemes := ls } hbefore (Nat.le_refl _)
    hlength).outcome_eq hends
  rw [hswap] at hgo
  rw [hgo, ofLexemes_eq_outcome, Parser.program_eq_go]
  rfl

theorem move_id (p : Program) : p.move id = p :=
  (List.map_congr_left fun d _ => d.move_id).trans (List.map_id p)

/-- A program is read in front of other tokens as it is alone, and they are read as they are alone, whatever
their places are. -/
theorem ofLexemes_append (place : Location → Location) {ks : List Lexeme} {p : Program} (hks : Scanned ks)
    (hp : ofLexemes ks = .ok p) (hls : Scanned ls) : ofLexemes (ks.dropLast ++ ls.map (Lexeme.move place)) =
      (((ofLexemes ls).map (Program.move place)).mapError (SyntaxError.move place)).map (p ++ ·) := by
  obtain ⟨i, hbefore⟩ := exists_before hks
  let E : Sequel := { last := i, place := id, lexemes := ls.map (Lexeme.move place), scanned := hls.move place }
  have hbefore : E.Before ks := hbefore E rfl
  have hext : E.extend { lexemes := ks } = { lexemes := ks.dropLast ++ ls.map (Lexeme.move place) } := by
    have hid : ks.dropLast.map (Lexeme.move id) = ks.dropLast := List.map_id _
    rw [extend, swap, hid]
  obtain ⟨k, hk, hgo⟩ := Parser.outcome_go_extend _ _ { lexemes := ks } hbefore rfl rfl
    ((ofLexemes_eq_outcome ks).symm.trans hp) (Nat.le_refl _) (Nat.le_refl _)
  rw [hext] at hgo
  rw [ofLexemes_eq_outcome, Parser.program_eq_go, hgo, outcome_go_move hls (by simpa [E] using hk), move_id]

end Program

end Labyrinth
