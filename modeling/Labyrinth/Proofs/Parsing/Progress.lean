import Labyrinth.Proofs.Parsing.Placed

/-!
# Readers move forward

The last token is never left behind, so a reader may take a token and stand where it stood. Then that token
is the only one that it has taken (`Cursor.Past`), and since no construct but a name or a literal is of one
token, all others move forward (`Parser.passes_statement`, `Parser.passes_decl`). Nothing is assumed of the
tokens, the last of which need not be the end of input.
-/

namespace Labyrinth

/-- A token that is an expression by itself. -/
def Token.IsLeaf : Token → Prop
  | .number _ | .boolean _ | .identifier _ => True
  | _ => False

namespace Cursor

variable {p q : Token → Prop} {s t u : Cursor}

theorem token_of_nil (h : s.lexemes = []) : s.token = .endOfInput := by
  rw [token, h]

theorem advance_ne_nil (h : s.token ≠ .endOfInput) : s.advance.lexemes ≠ [] := by
  unfold advance
  split
  · exact List.cons_ne_nil _ _
  · exact fun hnil => h (token_of_nil hnil)

/-- From `s` a reader has come to `t` and left the counters as they were. If `t` is where `s` is, then all that
it has taken is the last token, and `p` holds of that. -/
structure Past (p : Token → Prop) (s t : Cursor) : Prop where
  remains : Remains s.lexemes t.lexemes
  depth : t.depth = s.depth
  height : t.height = s.height
  stays : t.lexemes = s.lexemes → p s.token

namespace Past

theorem suffix (h : s.Past p t) : t.lexemes <:+ s.lexemes := h.remains.suffix

theorem refl : s.Past (fun _ => True) s := ⟨.refl, rfl, rfl, fun _ => trivial⟩

theorem mono (h : s.Past p t) (hpq : ∀ x, p x → q x) : s.Past q t :=
  ⟨h.remains, h.depth, h.height, fun he => hpq _ (h.stays he)⟩

theorem token_of_lexemes_eq (h : t.lexemes = s.lexemes) : t.token = s.token := by
  rw [token, token, h]

theorem trans (h : s.Past p t) (h' : t.Past q u) : s.Past (fun x => p x ∧ q x) u where
  remains := h.remains.trans h'.remains
  depth := h'.depth.trans h.depth
  height := h'.height.trans h.height
  stays he := by
    have ht : t.lexemes = s.lexemes :=
      h.suffix.eq_of_length_le (he ▸ h'.suffix.length_le)
    exact ⟨h.stays ht, token_of_lexemes_eq ht ▸ h'.stays (he.trans ht.symm)⟩

theorem length_le (h : s.Past p t) : t.lexemes.length ≤ s.lexemes.length := h.suffix.length_le

/-- Where a token is left that cannot have been taken, there is less left. -/
theorem length_lt (h : s.Past p t) (hp : ¬p t.token) : t.lexemes.length < s.lexemes.length := by
  refine Nat.lt_of_le_of_ne h.length_le fun hlen => ?_
  have he := h.suffix.eq_of_length hlen
  exact hp (token_of_lexemes_eq he ▸ h.stays he)

theorem advance (h : p s.token) : s.Past p s.advance :=
  ⟨Remains.refl.advance, depth_advance s, height_advance s, fun _ => h⟩

/-- A level that is closed again. -/
theorem leave (h : Past p { s with depth := s.depth + 1, height := s.height + 1 } t) :
    s.Past p (Parser.leave t) where
  remains := h.remains
  depth := by simp [Parser.leave, h.depth]
  height := by simp [Parser.leave, h.height]
  stays := h.stays

end Past

end Cursor

namespace Parser

variable {α β : Type} {p q : Token → Prop} {s t : Cursor}

/-- The reader leaves the counters as they are, and takes one token of which `p` holds or moves forward. -/
def Passes (r : Parser α) (p : Token → Prop) : Prop :=
  ∀ s, r.Meets s (fun _ t => s.Past p t) fun _ => True

namespace Passes

theorem mono {r : Parser α} (hr : r.Passes p) (hpq : ∀ x, p x → q x) : r.Passes q :=
  fun s => .mono (hr s) (fun _ _ h => h.mono hpq) fun _ => id

theorem pure (a : α) : (pure a : Parser α).Passes fun _ => True := fun _ => .refl

/-- A reader behind what is taken already. -/
theorem behind {r : Parser α} (hr : r.Passes q) (h : s.Past p t) :
    r.Meets t (fun _ u => s.Past (fun x => p x ∧ q x) u) fun _ => True :=
  .mono (hr t) (fun _ _ h' => h.trans h') fun _ => id

theorem bind {r : Parser α} {f : α → Parser β} (hr : r.Passes p) (hf : ∀ a, (f a).Passes q) :
    (r >>= f).Passes fun x => p x ∧ q x :=
  fun s => .bind (hr s) fun a _ h => (hf a).behind h

/-- What stands further on does not matter where the first token tells. -/
theorem first {r : Parser α} {f : α → Parser β} (hr : r.Passes p) (hf : ∀ a, (f a).Passes q) :
    (r >>= f).Passes p :=
  .mono (bind hr hf) fun _ => And.left

theorem second {r : Parser α} {f : α → Parser β} (hr : r.Passes p) (hf : ∀ a, (f a).Passes q) :
    (r >>= f).Passes q :=
  .mono (bind hr hf) fun _ => And.right

theorem map {r : Parser α} {f : α → β} (hr : r.Passes p) : (f <$> r).Passes p :=
  fun s => .map (hr s)

theorem get {f : Cursor → Parser α} (hf : ∀ s, (f s).Meets s (fun _ t => s.Past p t) fun _ => True) :
    (get >>= f).Passes p :=
  fun s => .get (hf s)

theorem throw (e : SyntaxError) : (throw e : Parser α).Passes p := fun _ => trivial

theorem fail (problem : SyntaxProblem) : (fail problem : Parser α).Passes p := fun _ => trivial

theorem unexpected (wanted : Expected) : (unexpected wanted : Parser α).Passes p := fun _ => trivial

end Passes

/-- A token that is known is taken, and what is read behind it tells if nothing else was. -/
theorem Meets.taking {f : Unit → Parser α} {x : Token} (ht : s.token = x) (hf : (f ()).Passes q)
    (hq : q x → p x) : (Parser.advance >>= f).Meets s (fun _ u => s.Past p u) fun _ => True := by
  have hpq : ∀ y, y = x ∧ q y → p y := by
    rintro _ ⟨rfl, h⟩
    exact hq h
  exact .advance (.mono (hf.behind (.advance (p := (· = x)) ht)) (fun _ _ h => h.mono hpq) fun _ => id)

namespace Passes

theorem expect (t : Token) : (expect t).Passes (· = t) :=
  fun _ => .expect (fun ht => .advance ht) fun _ => trivial

theorem expectMark (mark : Punctuation) : (expectMark mark).Passes (· = .punctuation mark) :=
  expect _

theorem expectName (wanted : Expected) :
    (expectName wanted).Passes fun x => ∃ name, x = .identifier name := by
  refine get fun s => ?_
  split
  · next ht => exact .taking ht (pure _) fun _ => ⟨_, rfl⟩
  · exact .unexpected trivial

theorem expectType : expectType.Passes fun x => ∃ ty, x = .keyword (.type ty) := by
  refine get fun s => ?_
  split
  · next ht => exact .taking ht (pure _) fun _ => ⟨_, rfl⟩
  · exact .unexpected trivial

theorem nested {r : Parser α} (hr : r.Passes p) : (nested r).Passes p :=
  fun _ => .nested (fun _ _ => .mono (hr _) (fun _ _ h => h.leave) fun _ => id) fun _ => trivial

/-- A level that is opened and closed again. -/
theorem level {r : Parser α} {f : α → Parser β} (hr : r.Passes p) (hf : ∀ a, (f a).Passes q) :
    (do enter; let a ← r; modify leave; f a : Parser β).Passes q := by
  intro s
  refine .bind (Q := fun _ t => t = { s with depth := s.depth + 1, height := s.height + 1 })
    (.enter (fun _ _ => rfl) fun _ => trivial) ?_
  rintro _ _ rfl
  refine .bind (hr _) fun a t ht => .modify ?_
  exact .mono ((hf a).behind ht.leave) (fun _ _ h => h.mono fun _ => And.right) fun _ => id

/-! ### Lists -/

theorem sepByComma_go {item : Parser α} (hitem : item.Passes p) :
    ∀ bound, (sepByComma.go item bound).Passes fun _ => True
  | 0 => pure []
  | bound + 1 => by
    refine .second hitem fun a => get fun s => ?_
    split
    · next ht => exact .taking ht (second (sepByComma_go hitem bound) fun as => pure (a :: as)) id
    · exact .pure .refl

theorem sepByComma {item : Parser α} (hitem : item.Passes p) : (sepByComma item).Passes fun _ => True :=
  get fun s => sepByComma_go hitem _ s

/-- Two parentheses are two tokens. -/
theorem parenthesized {item : Parser α} (hitem : item.Passes p) :
    (parenthesized item).Passes fun _ => False := by
  have hclose (as : List α) : (do Parser.expectMark .closeParen; return as : Parser (List α)).Passes
      (· = .punctuation .closeParen) := first (expectMark _) fun _ => pure as
  have hitems : (do
      let items ← if (← MonadState.get).token = .punctuation .closeParen then Pure.pure []
        else Parser.sepByComma item
      Parser.expectMark .closeParen
      return items : Parser (List α)).Passes (· = .punctuation .closeParen) := by
    refine get fun s => ?_
    split
    · exact second (pure []) hclose s
    · exact second (sepByComma hitem) hclose s
  refine .mono (bind (expectMark _) fun _ => hitems) ?_
  rintro _ ⟨rfl, h⟩
  cases h

end Passes

/-! ### Expressions -/

theorem passes_literal (raw : String) (i : Location) : (literal raw i).Passes fun _ => True := by
  unfold literal
  split
  · split
    · exact .pure _
    · exact .throw _
  · split
    · exact .pure _
    · exact .throw _

theorem passes_primary {inner : Parser Expr} (hinner : inner.Passes Token.IsLeaf) :
    (primary inner).Passes Token.IsLeaf := by
  refine .get fun s => ?_
  split
  · next ht => exact .taking ht (passes_literal _ _) fun _ => trivial
  · next ht => exact .taking ht (.pure _) fun _ => trivial
  · next ht =>
    refine .taking (q := fun _ => True) ht (.get fun t => ?_) fun _ => trivial
    split
    · exact Passes.second (.parenthesized hinner) (fun args => .pure _) t
    · exact .pure .refl
  · next ht =>
    exact .taking ht (.first hinner fun e => .second (.expectMark _) fun _ => .pure _) nofun
  · exact .unexpected trivial

theorem passes_chain {n : Nat} {operand : Parser Expr} (hop : operand.Passes Token.IsLeaf) :
    (chain n operand).Passes Token.IsLeaf := by
  intro s
  refine .bind (hop s) fun first t ht => .get ?_
  have hchain : (chainFrom n operand (maxHeight + 1) first).Meets t
      (fun _ u => Remains t.lexemes u.lexemes ∧ u.depth = t.depth) fun _ => True := by
    refine .chainFrom ?_ (fun _ => trivial) _ ⟨.refl, rfl⟩
    rintro left u op ⟨hu, hd⟩ - -
    have hadvance : Cursor.Past (fun _ => True) { u with height := u.height + 1 } _ := .advance trivial
    refine .mono (hop.behind hadvance) ?_ fun _ => id
    exact fun right v hv => ⟨hu.trans hv.remains, hv.depth.trans hd⟩
  refine .bind hchain ?_
  rintro e u ⟨hu, hd⟩
  -- the height goes back to what it was in front of the first operator
  have hback : t.Past (fun _ => True) { u with height := t.height } := ⟨hu, hd, rfl, fun _ => trivial⟩
  exact .modify (.pure ((ht.trans hback).mono fun _ => And.left))

theorem passes_levelled {operand : Parser Expr} (hop : operand.Passes Token.IsLeaf) {n : Nat}
    (hn : n ≤ 6) : (levelled operand n).Passes Token.IsLeaf :=
  levelled_induction (P := fun _ r => r.Passes Token.IsLeaf) hop (fun _ _ ih => passes_chain ih) n hn

theorem passes_operand : ∀ room, (operand room).Passes Token.IsLeaf
  | 0 => .fail _
  | room + 1 => by
    refine .nested (.get fun s => ?_)
    split
    · next op hop =>
      exact .taking (UnaryOp.ofToken?_eq_some.mp hop)
        (.first (passes_operand room) fun e => .pure _) (by cases op <;> exact False.elim)
    · exact passes_primary (passes_levelled (passes_operand room) (Nat.zero_le 6)) s

theorem passes_expression (room : Nat) : (expression room).Passes Token.IsLeaf :=
  passes_levelled (passes_operand room) (Nat.zero_le 6)

/-! ### Statements -/

/-- An expression and the mark behind it are two tokens. -/
theorem passes_terminated (room : Nat) (mark : Punctuation) (f : Expr → α) :
    (do let e ← expression room; expectMark mark; return f e : Parser α).Passes fun _ => False := by
  refine .mono (.bind (passes_expression room) fun e =>
    .first (.expectMark mark) fun _ => .pure (f e)) ?_
  rintro _ ⟨h, rfl⟩
  exact h

theorem passes_declaration (room : Nat) : (declaration room).Passes fun _ => False := by
  refine .get fun s => ?_
  refine Passes.mono (.bind .expectType fun ty => .first (.expectName _) fun name =>
    .second (.expect _) fun _ => passes_terminated room _ _) ?_ s
  rintro _ ⟨⟨ty, rfl⟩, name, h⟩
  cases h

theorem passes_condition (room : Nat) : (condition room).Passes fun _ => False :=
  .second (.expectMark _) fun _ => passes_terminated room _ id

theorem passes_statement {room : Nat} {block : Parser (List Stmt)} (hblock : block.Passes fun _ => False) :
    (statement room block).Passes fun _ => False := by
  have heval := passes_terminated room .semicolon Stmt.eval
  refine .get fun s => ?_
  split
  · exact passes_declaration room s
  · exact passes_declaration room s
  · exact passes_declaration room s
  · next ht =>
    exact .taking ht (.first (passes_condition room) fun e => .first hblock fun body => .pure _) id
  · next ht =>
    exact .taking ht (.first (passes_condition room) fun e => .first hblock fun body => .pure _) id
  · next ht =>
    refine .taking (q := (· = .punctuation .semicolon)) ht (.get fun t => ?_) nofun
    have hend (value : Option Expr) : (do expectMark .semicolon; return .ret s.loc value :
        Parser Stmt).Passes (· = .punctuation .semicolon) := .first (.expectMark _) fun _ => .pure _
    split
    · exact Passes.second (.pure none) hend t
    · exact Passes.second (.map (passes_expression room)) hend t
  · exact Passes.first hblock (fun body => .pure _) s
  · next ht =>
    split
    · refine .taking (q := fun _ => False) ht (fun t => ?_) id
      exact .taking rfl (passes_terminated room _ _) id
    · exact heval s
  · exact heval s

theorem passes_statements {stmt : Parser Stmt} (hstmt : stmt.Passes p) :
    (statements stmt).Passes fun _ => True := by
  have hgo : ∀ bound, (statements.go stmt bound).Passes fun _ => True := by
    intro bound
    induction bound with
    | zero => exact .unexpected _
    | succ bound ih =>
      refine .get fun s => ?_
      split
      · exact .pure .refl
      · exact .unexpected trivial
      · exact Passes.second hstmt (fun stmt => .second ih fun body => .pure _) s
  exact .get fun s => hgo _ s

/-- Two braces are two tokens. -/
theorem passes_block : ∀ room, (block room).Passes fun _ => False
  | 0 => .second (.expectMark _) fun _ => .fail _
  | room + 1 => by
    have hstmt : (statement room (block room)).Passes _ := passes_statement (passes_block room)
    have hbody := passes_statements hstmt
    refine .mono (.bind (.expectMark _) fun _ => .level hbody fun body =>
      .first (.expectMark _) fun _ => .pure body) ?_
    rintro _ ⟨rfl, h⟩
    cases h

/-! ### Declarations -/

theorem passes_param : param.Passes fun _ => False := by
  have hname (ty : Ty) : (do
      let loc := (← get).loc
      let name ← expectName .parameterName
      return ⟨loc, ty, name⟩ : Parser Param).Passes fun x => ∃ name, x = .identifier name :=
    .get fun s => Passes.first (.expectName _) (fun name => .pure _) s
  refine .mono (.bind .expectType hname) ?_
  rintro _ ⟨⟨ty, rfl⟩, name, h⟩
  cases h

theorem passes_function : function.Passes fun _ => False := by
  refine .get fun s => ?_
  refine Passes.second (.expect _) (fun _ => .second .expectType fun ret =>
    .second (.expectName _) fun name => .first (.parenthesized passes_param) fun params =>
      .first (passes_block _) fun body => .pure _) s

theorem passes_decl : decl.Passes fun _ => False := by
  refine .get fun s => ?_
  split
  · exact Passes.map passes_function s
  · exact Passes.map (passes_statement (passes_block _)) s

end Parser

end Labyrinth
