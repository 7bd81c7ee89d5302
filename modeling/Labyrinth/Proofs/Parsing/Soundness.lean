import Labyrinth.Proofs.Parsing.Grammar
import Labyrinth.Proofs.Parsing.Readers
import Labyrinth.Proofs.Parsing.Scanned

/-!
# What is read has a derivation

A reader takes tokens off the front of what is left (`Taken`), and they derive what it gives
(`Parser.Sound`). The lemmas follow the readers; that the bounds of the loops over lists are never
reached comes from the number of tokens that are left.
-/

namespace Labyrinth

open Grammar

/-- A whole number that is a literal is one of 64 bits. -/
def Token.Ranged : Token → Prop
  | .number raw => Text.IsDigits raw.toList → Text.digitsValue raw.toList < 2 ^ 63
  | _ => True

namespace Scanned

variable {ls : List Lexeme} {s : Cursor}

theorem ne_nil (h : Scanned ls) : ls ≠ [] := by
  cases h <;> simp

/-- In front of the end of input there is a regular token and something behind it. -/
theorem cases_cursor (h : Scanned s.lexemes) :
    s.token = .endOfInput ∨ s.token.Regular ∧ s.lexemes = ⟨s.token, s.loc⟩ :: s.advance.lexemes ∧
      Scanned s.advance.lexemes := by
  generalize hl : s.lexemes = ls at h
  cases h with
  | last => exact .inl (Cursor.token_of_lexemes hl)
  | @cons l ls hr h =>
    rw [Cursor.token_of_lexemes hl, Cursor.loc_of_lexemes hl, Cursor.advance_of_lexemes hl h.ne_nil]
    exact .inr ⟨hr, rfl, h⟩

/-- The end of input is the only token that is left where it is the next one. -/
theorem eq_singleton (h : Scanned s.lexemes) (ht : s.token = .endOfInput) :
    ∃ i, s.lexemes = [⟨.endOfInput, i⟩] := by
  generalize hl : s.lexemes = ls at h
  cases h with
  | last => exact ⟨_, rfl⟩
  | cons hr _ =>
    rw [Cursor.token_of_lexemes hl] at ht
    rw [ht] at hr
    cases hr

end Scanned

/-- The tokens `ts` are taken off the front of `ls`, and `rest` is left. -/
structure Taken (ls ts rest : List Lexeme) : Prop where
  eq : ls = ts ++ rest
  scanned : Scanned rest
  ranged : ∀ l ∈ ts, l.token.Ranged

namespace Taken

variable {ls ts us rest rest' : List Lexeme} {s : Cursor} {t : Token}

theorem nil (h : Scanned ls) : Taken ls [] ls := ⟨rfl, h, nofun⟩

theorem append (h : Taken ls ts rest) (h' : Taken rest us rest') : Taken ls (ts ++ us) rest' where
  eq := by rw [h.eq, h'.eq, List.append_assoc]
  scanned := h'.scanned
  ranged := List.forall_mem_append.mpr ⟨h.ranged, h'.ranged⟩

theorem length (h : Taken ls ts rest) : ls.length = ts.length + rest.length := by
  rw [h.eq, List.length_append]

theorem advance (hs : Scanned s.lexemes) (ht : s.token = t) (hne : t ≠ .endOfInput) (hr : t.Ranged) :
    Taken s.lexemes [⟨t, s.loc⟩] s.advance.lexemes := by
  subst ht
  rcases hs.cases_cursor with h | ⟨-, he, h⟩
  · exact absurd h hne
  · exact ⟨he, h, by simpa using hr⟩

end Taken

namespace Parser

variable {α : Type} {s : Cursor} {D : List Lexeme → α → Prop} {Item : List Lexeme → α → Prop}

/-- What the reader gives is derived by the tokens that it takes. -/
def Sound (r : Parser α) (s : Cursor) (D : List Lexeme → α → Prop) : Prop :=
  r.Meets s (fun a t => ∃ ts, Taken s.lexemes ts t.lexemes ∧ D ts a) fun _ => True

/-- What is read behind tokens that are taken already. -/
theorem Sound.behind {r : Parser α} {D' : List Lexeme → α → Prop} {ls ts : List Lexeme}
    (h : r.Sound s D') (hts : Taken ls ts s.lexemes) (hD : ∀ us a, D' us a → D (ts ++ us) a) :
    r.Meets s (fun a u => ∃ ts, Taken ls ts u.lexemes ∧ D ts a) fun _ => True := by
  refine .mono h ?_ fun _ => id
  rintro a u ⟨us, hus, ha⟩
  exact ⟨_, hts.append hus, hD us a ha⟩

/-! ### Tokens -/

theorem taken_expect {t : Token} (hs : Scanned s.lexemes) (hne : t ≠ .endOfInput) (hr : t.Ranged) :
    (expect t).Meets s (fun _ u => Taken s.lexemes [⟨t, s.loc⟩] u.lexemes) fun _ => True :=
  .expect (fun ht => .advance hs ht hne hr) fun _ => trivial

theorem taken_expectMark {mark : Punctuation} (hs : Scanned s.lexemes) :
    (expectMark mark).Meets s
      (fun _ u => Taken s.lexemes [⟨.punctuation mark, s.loc⟩] u.lexemes) fun _ => True :=
  taken_expect hs nofun trivial

theorem taken_expectName {wanted : Expected} (hs : Scanned s.lexemes) :
    (expectName wanted).Meets s
      (fun name u => Taken s.lexemes [⟨.identifier name, s.loc⟩] u.lexemes) fun _ => True := by
  refine .get ?_
  split
  · next ht => exact .advance (.pure (.advance hs ht nofun trivial))
  · exact .unexpected trivial

theorem taken_expectType (hs : Scanned s.lexemes) :
    expectType.Meets s
      (fun ty u => Taken s.lexemes [⟨.keyword (.type ty), s.loc⟩] u.lexemes) fun _ => True := by
  refine .get ?_
  split
  · next ht => exact .advance (.pure (.advance hs ht nofun trivial))
  · exact .unexpected trivial

/-! ### Lists -/

theorem sound_sepByComma {item : Parser α} (hitem : ∀ {s}, Scanned s.lexemes → item.Sound s Item)
    (hs : Scanned s.lexemes) : (sepByComma item).Sound s (Separated Item) := by
  have hgo : ∀ (bound : Nat) (s : Cursor), Scanned s.lexemes → s.lexemes.length ≤ bound →
      (sepByComma.go item bound).Sound s (Separated Item) := by
    intro bound
    induction bound with
    | zero =>
      intro s hs hl
      exact absurd (List.length_eq_zero_iff.mp (Nat.le_zero.mp hl)) hs.ne_nil
    | succ bound ih =>
      intro s hs hl
      refine .bind (hitem hs) ?_
      rintro a t ⟨ts, hts, ha⟩
      refine .get ?_
      split
      · next hcomma =>
        have hadv := Taken.advance hts.scanned hcomma nofun trivial
        -- the comma is taken, so there is enough left of the bound
        have hlen := hadv.length
        have hlen' := hts.length
        refine .advance (.bind (ih _ hadv.scanned (by simp at hlen; omega)) ?_)
        rintro as u ⟨us, hus, has⟩
        exact .pure ⟨_, (hts.append hadv).append hus, by simpa using Separated.more ha has⟩
      · exact .pure ⟨ts, hts, .last ha⟩
  exact .get (hgo _ s hs (Nat.le_refl _))

theorem sound_parenthesized {item : Parser α}
    (hitem : ∀ {s}, Scanned s.lexemes → item.Sound s Item) (hs : Scanned s.lexemes) :
    (parenthesized item).Sound s (Parenthesized Item) := by
  refine .bind (taken_expectMark hs) ?_
  rintro - t hopen
  refine .get ?_
  split
  · refine .bind (Q := fun as u => as = [] ∧ u = t) (.pure ⟨rfl, rfl⟩) ?_
    rintro _ _ ⟨rfl, rfl⟩
    refine .bind (taken_expectMark hopen.scanned) ?_
    rintro - u hclose
    exact .pure ⟨_, hopen.append hclose, .none⟩
  · refine .bind (sound_sepByComma hitem hopen.scanned) ?_
    rintro as u ⟨ts, hts, has⟩
    refine .bind (taken_expectMark hts.scanned) ?_
    rintro - v hclose
    exact .pure ⟨_, (hopen.append hts).append hclose, .some has⟩

/-! ### Expressions -/

theorem sound_literal {raw : String} {i : Location} (hr : (Token.number raw).Regular) :
    (literal raw i).Meets s (fun e t => t = s ∧ (Token.number raw).Ranged ∧
      Expression 7 [⟨.number raw, i⟩] e) fun _ => True := by
  unfold literal
  split
  · next hdot =>
    have hdot : '.' ∈ raw.toList := by simpa using hdot
    split
    · next value hv =>
      refine .pure ⟨rfl, fun hd => ?_, .float hdot hv⟩
      exact absurd (hd.2 _ hdot) (by decide)
    · trivial
  · next hdot =>
    have hd : Text.IsDigits raw.toList := hr.resolve_right fun h => hdot (by simpa using h.1)
    rw [hd.int64?]
    split
    · next value hv =>
      split at hv
      · next hlt =>
        cases hv
        exact .pure ⟨rfl, fun _ => hlt, .int hd.1 hd.2⟩
      · cases hv
    · trivial

theorem sound_primary {inner : Parser Expr}
    (hinner : ∀ {s}, Scanned s.lexemes → inner.Sound s (Expression 0)) (hs : Scanned s.lexemes) :
    (primary inner).Sound s (Expression 7) := by
  refine .get ?_
  split
  · next raw ht =>
    rcases hs.cases_cursor with h | ⟨hr, he, h⟩
    · cases ht.symm.trans h
    rw [ht] at hr he
    refine .advance (.mono (sound_literal hr) ?_ fun _ => id)
    rintro e _ ⟨rfl, hranged, he'⟩
    exact ⟨_, ⟨he, h, by simpa using hranged⟩, he'⟩
  · next value ht =>
    exact .advance (.pure ⟨_, .advance hs ht nofun trivial, .bool⟩)
  · next name ht =>
    have hname := Taken.advance hs ht nofun trivial
    refine .advance (.get ?_)
    split
    · refine .bind (sound_parenthesized hinner hname.scanned) ?_
      rintro args t ⟨ts, hts, hargs⟩
      exact .pure ⟨_, hname.append hts, .call hargs⟩
    · exact .pure ⟨_, hname, .var⟩
  · next ht =>
    have hopen := Taken.advance hs ht nofun trivial
    refine .advance (.bind (hinner hopen.scanned) ?_)
    rintro e t ⟨ts, hts, he⟩
    refine .bind (taken_expectMark hts.scanned) ?_
    rintro - u hclose
    exact .pure ⟨_, (hopen.append hts).append hclose, .paren he⟩
  · exact .unexpected trivial

theorem sound_chainFrom {n : Nat} {operand : Parser Expr}
    (hoperand : ∀ {s}, Scanned s.lexemes → operand.Sound s (Expression (n + 1))) (bound : Nat)
    {s : Cursor} {ls ts : List Lexeme} {left : Expr} (hls : Taken ls ts s.lexemes)
    (hleft : Expression n ts left) :
    (chainFrom n operand bound left).Meets s
      (fun e t => ∃ ts, Taken ls ts t.lexemes ∧ Expression n ts e) fun _ => True := by
  refine .chainFrom ?_ (fun _ => trivial) bound ⟨ts, hls, hleft⟩
  rintro left s op ⟨ts, hls, hleft⟩ hop -
  obtain ⟨hlevel, ht⟩ := BinaryOp.ofToken?_eq_some.mp hop
  have hsign := Taken.advance (s := { s with height := s.height + 1 }) hls.scanned ht nofun trivial
  refine .mono (hoperand hsign.scanned) ?_ fun _ => id
  rintro right t ⟨us, hus, hright⟩
  refine ⟨_, (hls.append hsign).append hus, ?_⟩
  -- the node is put at the first token of the left operand
  obtain ⟨l, ts, rfl, hloc⟩ := hleft.exists_first
  rw [hloc]
  simpa using Expression.binary hlevel hleft hright

theorem sound_levelled {operand : Parser Expr}
    (hoperand : ∀ {s}, Scanned s.lexemes → operand.Sound s (Expression 6)) {n : Nat} (hn : n ≤ 6) :
    ∀ {s}, Scanned s.lexemes → (levelled operand n).Sound s (Expression n) := by
  refine levelled_induction
    (P := fun n r => ∀ {s : Cursor}, Scanned s.lexemes → r.Sound s (Expression n)) hoperand ?_ n hn
  intro n _ ih s hs
  refine .bind (ih hs) ?_
  rintro first t ⟨ts, hts, hfirst⟩
  refine .get (.bind (sound_chainFrom ih _ hts hfirst.tighter) ?_)
  rintro e u hu
  exact .modify (.pure hu)

theorem sound_operand : ∀ (room : Nat) {s : Cursor}, Scanned s.lexemes →
    (operand room).Sound s (Expression 6)
  | 0, _, _ => .fail trivial
  | room + 1, s, hs => by
    refine .nested (fun _ _ => ?_) fun _ => trivial
    refine .get ?_
    split
    · next op hop =>
      have hsign := Taken.advance (s := { s with depth := s.depth + 1, height := s.height + 1 }) hs
        (UnaryOp.ofToken?_eq_some.mp hop) nofun trivial
      refine .advance (.bind (sound_operand room hsign.scanned) ?_)
      rintro e t ⟨ts, hts, he⟩
      exact .pure ⟨_, hsign.append hts, .unary he⟩
    · refine .mono (sound_primary (sound_levelled (sound_operand room) (Nat.zero_le 6)) hs) ?_
        fun _ => id
      rintro e t ⟨ts, hts, he⟩
      exact ⟨ts, hts, he.tighter⟩

theorem sound_expression (room : Nat) (hs : Scanned s.lexemes) :
    (expression room).Sound s (Expression 0) :=
  sound_levelled (sound_operand room) (Nat.zero_le 6) hs

/-! ### Statements -/

theorem sound_declaration {room : Nat} {ty : Ty} (hs : Scanned s.lexemes)
    (ht : s.token = .keyword (.type ty)) (hv : ty ≠ .void) :
    (declaration room).Sound s Statement := by
  refine .get (.bind (taken_expectType hs) ?_)
  rintro ty' t hty
  obtain rfl : ty' = ty := by
    rw [Cursor.token_of_lexemes hty.eq] at ht
    cases ht
    rfl
  refine .bind (taken_expectName hty.scanned) ?_
  rintro name u hname
  refine .bind (taken_expect hname.scanned nofun trivial) ?_
  rintro - v hassign
  refine .bind (sound_expression room hassign.scanned) ?_
  rintro init w ⟨ts, hts, hinit⟩
  refine .bind (taken_expectMark hts.scanned) ?_
  rintro - x hend
  exact .pure ⟨_, (((hty.append hname).append hassign).append hts).append hend, .declare hv hinit⟩

theorem sound_guarded {room : Nat} {block : Parser (List Stmt)} {f : Expr → List Stmt → Stmt}
    (hblock : ∀ {s}, Scanned s.lexemes → block.Sound s (Braced Statement)) (hs : Scanned s.lexemes) :
    (do let test ← condition room; return f test (← block) : Parser Stmt).Sound s
      fun ts stmt => ∃ us vs test body i j, Expression 0 us test ∧ Braced Statement vs body ∧
        ts = ⟨.punctuation .openParen, i⟩ :: us ++ ⟨.punctuation .closeParen, j⟩ :: vs ∧
        stmt = f test body := by
  have hcondition : (condition room).Sound s fun ts test => ∃ us i j, Expression 0 us test ∧
      ts = ⟨.punctuation .openParen, i⟩ :: us ++ [⟨.punctuation .closeParen, j⟩] := by
    refine .bind (taken_expectMark hs) ?_
    rintro - t hopen
    refine .bind (sound_expression room hopen.scanned) ?_
    rintro test u ⟨ts, hts, htest⟩
    refine .bind (taken_expectMark hts.scanned) ?_
    rintro - v hclose
    exact .pure ⟨_, (hopen.append hts).append hclose, ts, _, _, htest, rfl⟩
  refine .bind hcondition ?_
  rintro test t ⟨_, hts, us, i, j, htest, rfl⟩
  refine .bind (hblock hts.scanned) ?_
  rintro body u ⟨vs, hvs, hbody⟩
  exact .pure ⟨_, hts.append hvs, us, vs, test, body, i, j, htest, hbody, by simp, rfl⟩

theorem sound_terminated {room : Nat} {f : Expr → Stmt} (hs : Scanned s.lexemes) :
    (do let value ← expression room; expectMark .semicolon; return f value : Parser Stmt).Sound s
      fun ts stmt => ∃ us value i, Expression 0 us value ∧
        ts = us ++ [⟨.punctuation .semicolon, i⟩] ∧ stmt = f value := by
  refine .bind (sound_expression room hs) ?_
  rintro value t ⟨ts, hts, hvalue⟩
  refine .bind (taken_expectMark hts.scanned) ?_
  rintro - u hend
  exact .pure ⟨_, hts.append hend, ts, value, _, hvalue, rfl, rfl⟩

theorem sound_statement {room : Nat} {block : Parser (List Stmt)}
    (hblock : ∀ {s}, Scanned s.lexemes → block.Sound s (Braced Statement))
    (hs : Scanned s.lexemes) : (statement room block).Sound s Statement := by
  have heval : (do let value ← expression room; expectMark .semicolon; return .eval value :
      Parser Stmt).Sound s Statement := by
    refine (sound_terminated hs).behind (.nil hs) ?_
    rintro _ _ ⟨us, value, i, hvalue, rfl, rfl⟩
    exact .eval hvalue
  refine .get ?_
  split
  · next ht => exact sound_declaration hs ht nofun
  · next ht => exact sound_declaration hs ht nofun
  · next ht => exact sound_declaration hs ht nofun
  · next ht =>
    have hword := Taken.advance hs ht nofun trivial
    refine .advance ((sound_guarded hblock hword.scanned).behind hword ?_)
    rintro _ _ ⟨us, vs, test, body, i, j, htest, hbody, rfl, rfl⟩
    exact .cond htest hbody
  · next ht =>
    have hword := Taken.advance hs ht nofun trivial
    refine .advance ((sound_guarded hblock hword.scanned).behind hword ?_)
    rintro _ _ ⟨us, vs, test, body, i, j, htest, hbody, rfl, rfl⟩
    exact .loop htest hbody
  · next ht =>
    have hword := Taken.advance hs ht nofun trivial
    refine .advance (.get ?_)
    split
    · refine .bind (Q := fun value u => value = none ∧ u = s.advance) (.pure ⟨rfl, rfl⟩) ?_
      rintro _ _ ⟨rfl, rfl⟩
      refine .bind (taken_expectMark hword.scanned) ?_
      rintro - u hend
      exact .pure ⟨_, hword.append hend, .leave⟩
    · rw [bind_map_left]
      refine (sound_terminated hword.scanned).behind hword ?_
      rintro _ _ ⟨us, value, i, hvalue, rfl, rfl⟩
      exact .ret hvalue
  · refine .bind (hblock hs) ?_
    rintro body t ⟨ts, hts, hbody⟩
    obtain ⟨l, us, rfl⟩ := hbody.exists_cons
    rw [Cursor.loc_of_lexemes hts.eq]
    exact .pure ⟨_, hts, .block hbody⟩
  · next name ht =>
    split
    · next hnext =>
      have hname := Taken.advance hs ht nofun trivial
      have hsign : s.advance.token = .operator .assign := by
        rw [Cursor.token_advance (by simp [hnext]), hnext]
      have hassign := Taken.advance hname.scanned hsign nofun trivial
      refine .advance (.advance ?_)
      refine (sound_terminated hassign.scanned).behind (hname.append hassign) ?_
      rintro _ _ ⟨us, value, i, hvalue, rfl, rfl⟩
      exact .assign hvalue
    · exact heval
  · exact heval

theorem sound_statements {stmt : Parser Stmt}
    (hstmt : ∀ {s}, Scanned s.lexemes → stmt.Sound s Statement) (hs : Scanned s.lexemes) :
    (statements stmt).Sound s (Many Statement) := by
  have hgo : ∀ (bound : Nat) (s : Cursor), Scanned s.lexemes →
      (statements.go stmt bound).Sound s (Many Statement) := by
    intro bound
    induction bound with
    | zero => exact fun s _ => .unexpected trivial
    | succ bound ih =>
      intro s hs
      refine .get ?_
      split
      · exact .pure ⟨[], .nil hs, .nil⟩
      · exact .unexpected trivial
      · refine .bind (hstmt hs) ?_
        rintro a t ⟨ts, hts, ha⟩
        refine .bind (ih t hts.scanned) ?_
        rintro as u ⟨us, hus, has⟩
        exact .pure ⟨_, hts.append hus, .cons ha has⟩
  exact .get (hgo _ s hs)

theorem sound_block : ∀ (room : Nat) {s : Cursor}, Scanned s.lexemes →
    (block room).Sound s (Braced Statement)
  | 0, s, hs => .bind (taken_expectMark hs) fun _ _ _ => .fail trivial
  | room + 1, s, hs => by
    refine .bind (taken_expectMark hs) ?_
    rintro - t hopen
    refine .bind (Q := fun _ u => u.lexemes = t.lexemes) (.enter (fun _ _ => rfl) fun _ => trivial) ?_
    rintro - u hu
    have hscanned : Scanned u.lexemes := hu ▸ hopen.scanned
    refine .bind (sound_statements (sound_statement (sound_block room)) hscanned) ?_
    rintro body v ⟨ts, hts, hbody⟩
    refine .modify (.bind (taken_expectMark (s := leave v) hts.scanned) ?_)
    rintro - w hclose
    rw [hu] at hts
    exact .pure ⟨_, (hopen.append hts).append hclose, .mk hbody⟩

/-! ### Declarations -/

theorem sound_param (hs : Scanned s.lexemes) : param.Sound s Parameter := by
  refine .bind (taken_expectType hs) ?_
  rintro ty t hty
  refine .get (.bind (taken_expectName hty.scanned) ?_)
  rintro name u hname
  exact .pure ⟨_, hty.append hname, .mk⟩

theorem sound_function (hs : Scanned s.lexemes) : function.Sound s Definition := by
  refine .get (.bind (taken_expect hs nofun trivial) ?_)
  rintro - t hfunc
  refine .bind (taken_expectType hfunc.scanned) ?_
  rintro ret u hret
  refine .bind (taken_expectName hret.scanned) ?_
  rintro name v hname
  refine .bind (sound_parenthesized sound_param hname.scanned) ?_
  rintro params w ⟨ts, hts, hparams⟩
  refine .bind (sound_block maxNesting hts.scanned) ?_
  rintro body x ⟨us, hus, hbody⟩
  exact .pure ⟨_, (((hfunc.append hret).append hname).append hts).append hus, .mk hparams hbody⟩

theorem sound_decl (hs : Scanned s.lexemes) : decl.Sound s Declaration := by
  refine .get ?_
  split
  · refine .map ((sound_function hs).behind (.nil hs) ?_)
    exact fun _ _ => .function
  · refine .map ((sound_statement (sound_block maxNesting) hs).behind (.nil hs) ?_)
    exact fun _ _ => .stmt

theorem sound_program (hs : Scanned s.lexemes) :
    program.Meets s (fun p t => t.token = .endOfInput ∧
      ∃ ts, Taken s.lexemes ts t.lexemes ∧ Sentence ts p) fun _ => True := by
  have hgo : ∀ (bound : Nat) (s : Cursor), Scanned s.lexemes → s.lexemes.length ≤ bound →
      (program.go bound).Meets s (fun p t => t.token = .endOfInput ∧
        ∃ ts, Taken s.lexemes ts t.lexemes ∧ Sentence ts p) fun _ => True := by
    intro bound
    induction bound with
    | zero =>
      intro s hs hl
      exact absurd (List.length_eq_zero_iff.mp (Nat.le_zero.mp hl)) hs.ne_nil
    | succ bound ih =>
      intro s hs hl
      refine .get ?_
      split
      · next ht => exact .pure ⟨ht, [], .nil hs, .nil⟩
      · refine .bind (sound_decl hs) ?_
        rintro d t ⟨ts, hts, hd⟩
        -- a declaration takes a token at least, so there is enough left of the bound
        have hlen := hts.length
        have hpos := List.length_pos_iff.mpr hd.ne_nil
        refine .bind (ih t hts.scanned (by omega)) ?_
        rintro ds u ⟨hu, us, hus, hds⟩
        exact .pure ⟨hu, _, hts.append hus, .cons hd hds⟩
  exact .get (hgo _ s hs (Nat.le_refl _))

end Parser

/-- The tokens in front of the end of input derive the program that is read of them. -/
theorem Program.sentence_of_ofLexemes {ls : List Lexeme} {p : Program} (hls : Scanned ls)
    (h : ofLexemes ls = .ok p) : ∃ body i, ls = body ++ [⟨.endOfInput, i⟩] ∧ Sentence body p ∧
      ∀ l ∈ body, l.token.Ranged := by
  have hmeets := Parser.sound_program (s := { lexemes := ls }) hls
  unfold ofLexemes at h
  split at h
  · next q t hq =>
    cases h
    obtain ⟨ht, body, hbody, hp⟩ := hmeets.ok hq
    obtain ⟨i, hi⟩ := hbody.scanned.eq_singleton ht
    have he : ls = body ++ t.lexemes := hbody.eq
    exact ⟨body, i, by rw [he, hi], hp, hbody.ranged⟩
  · cases h

end Labyrinth
