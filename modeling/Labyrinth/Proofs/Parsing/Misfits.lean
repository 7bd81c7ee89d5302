import Mathlib.Order.Bounds.Defs
import Labyrinth.Proofs.Parsing.Pinpoint
import Labyrinth.Proofs.Parsing.Recursion
import Labyrinth.Proofs.Parsing.Sentences

/-!
# The first token that does not fit

An error about a token that is not expected is one about the first token that no sentence of the grammar goes
on with (`Source.unexpected_isLeast`). The tokens in front of it are taken already and are the start of what is
being read (`Grammar.Viable`), and with that token behind them there is the same error whatever comes next.
-/

namespace Labyrinth

open Grammar

namespace Grammar

section

variable {α β : Type} {D : List Lexeme → α → Prop} {D' : List Lexeme → β → Prop} {ts us : List Lexeme}

/-- The tokens are the start of some that derive something. -/
def Viable (D : List Lexeme → α → Prop) (ts : List Lexeme) : Prop :=
  ∃ us a, D (ts ++ us) a

namespace Viable

theorem of_derives {a : α} (h : D ts a) : Viable D ts :=
  ⟨[], a, by rwa [List.append_nil]⟩

theorem shorten (h : Viable D us) (hts : ts <+: us) : Viable D ts := by
  obtain ⟨vs, rfl⟩ := hts
  obtain ⟨ws, a, h⟩ := h
  exact ⟨vs ++ ws, a, by rwa [← List.append_assoc]⟩

theorem nil (h : Viable D ts) : Viable D [] := h.shorten List.nil_prefix

/-- The start of a part, and what stands in front of that part. -/
theorem within (before after : List Lexeme) (h : Viable D ts)
    (hD : ∀ us a, D us a → ∃ b, D' (before ++ us ++ after) b) : Viable D' (before ++ ts) := by
  obtain ⟨us, a, h⟩ := h
  obtain ⟨b, h⟩ := hD _ a h
  exact ⟨us ++ after, b, by simpa using h⟩

/-- The start of what stands at the end. -/
theorem behind (before : List Lexeme) (h : Viable D ts) (hD : ∀ us a, D us a → ∃ b, D' (before ++ us) b) :
    Viable D' (before ++ ts) :=
  h.within before [] fun us a ha => by simpa using hD us a ha

theorem mono (h : Viable D ts) (hD : ∀ us a, D us a → ∃ b, D' us b) : Viable D' ts :=
  h.behind [] hD

end Viable

end

/-! ### What derives something -/

theorem expression_var {n : Nat} (hn : n ≤ 7) (name : String) (i : Location) :
    Expression n [⟨.identifier name, i⟩] (.var i name) := by
  induction hn using Nat.decreasingInduction with
  | self => exact .var
  | of_succ n hn ih => exact .tighter ih

theorem viable_expression {n : Nat} (hn : n ≤ 7) : Viable (Expression n) [] :=
  (Viable.of_derives (expression_var hn "a" .start)).nil

theorem viable_statement : Viable Statement [] :=
  (Viable.of_derives (.leave (i := .start) (j := .start))).nil

theorem Many.single {α : Type} {Item : List Lexeme → α → Prop} {ts : List Lexeme} {a : α} (h : Item ts a) :
    Many Item ts [a] := by
  have hmany := Many.cons h .nil
  rwa [List.append_nil] at hmany

theorem viable_block (i : Location) {us : List Lexeme} (h : Viable (Many Statement) us) :
    Viable (Braced Statement) (⟨.punctuation .openBrace, i⟩ :: us) :=
  h.within [_] [⟨.punctuation .closeBrace, .start⟩] fun _ as has => ⟨as, .mk has⟩

end Grammar

theorem Limit.problem_ne {ts : List Lexeme} {e : SyntaxError} (h : Limit ts e) (wanted : Expected)
    (got : Token) : e.problem ≠ .unexpected wanted got := by
  rcases h with h | ⟨raw, i, rfl, -⟩
  · exact h ▸ nofun
  · nofun

namespace Parser

variable {α β : Type} {s : Cursor} {V : List Lexeme → Prop} {Item D : List Lexeme → α → Prop} {r : Parser α}

/-- What is taken derives what is read, and what is taken in front of an unexpected token is the start of such
tokens. -/
structure Follows (r : Parser α) (D : List Lexeme → α → Prop) : Prop where
  sound : ∀ {s}, Scanned s.lexemes → r.Sound s D
  pinpoints : ∀ {s}, Scanned s.lexemes → r.Pinpoints s (Viable D)

namespace Pinpoints

/-- A part of what is read. -/
theorem part {k : α → Parser β} (hr : r.Follows D) (hs : Scanned s.lexemes) (hV : ∀ ts, Viable D ts → V ts)
    (hk : ∀ ts a t, Taken s.lexemes ts t.lexemes → D ts a → (k a).Pinpoints t fun us => V (ts ++ us)) :
    (r >>= k).Pinpoints s V :=
  .bind (hr.pinpoints hs) (hr.sound hs) hV hk

/-- A part and a mark behind it. -/
theorem closed {mark : Punctuation} {k : α → Parser β} (hr : r.Follows D) (hs : Scanned s.lexemes)
    (hV : ∀ ts, Viable D ts → V ts)
    (hk : ∀ ts a t i, D ts a → Scanned t.lexemes →
      (k a).Pinpoints t fun us => V (ts ++ ⟨.punctuation mark, i⟩ :: us)) :
    (do let a ← r; expectMark mark; k a : Parser β).Pinpoints s V := by
  refine .part hr hs hV fun ts a t hts ha => .mark hts.scanned ?_ fun u i hu => hk ts a u i ha hu
  rw [List.append_nil]
  exact hV ts (.of_derives ha)

/-- The last part. -/
theorem last {k : α → Parser β} (hr : r.Follows D) (hs : Scanned s.lexemes) (hV : ∀ ts, Viable D ts → V ts)
    (hk : ∀ a t, t.lexemes ≠ [] → (k a).Pinpoints t fun _ => False) : (r >>= k).Pinpoints s V :=
  ((hr.pinpoints hs).mono hV).first hk

end Pinpoints

theorem Follows.mono {D' : List Lexeme → α → Prop} (hr : r.Follows D) (hD : ∀ ts a, D ts a → D' ts a) :
    r.Follows D' where
  sound hs := .mono (hr.sound hs) (fun a _ ⟨ts, hts, ha⟩ => ⟨ts, hts, hD ts a ha⟩) fun _ => id
  pinpoints hs := (hr.pinpoints hs).mono fun _ h => h.mono fun us a ha => ⟨a, hD us a ha⟩

/-! ### Lists -/

section

variable {item : Parser α} {p : Token → Prop} (hpasses : item.Passes p) (hp : ¬p (.punctuation .comma))
  (hitem : item.Follows Item)

include hpasses hp hitem

theorem follows_commas : (commas item).Follows (Separated Item) where
  sound {s} hs := by
    have h := sound_sepByComma hitem.sound hs
    unfold Sound Meets at h ⊢
    rwa [sepByComma_eq hpasses hp hs.ne_nil]
  pinpoints hs := by
    refine .loop (commas_eq hpasses hp) (fun s again hs hagain => ?_) hs
    refine .part hitem hs (fun us h => h.mono fun vs a ha => ⟨_, .last ha⟩) fun ts a t hts ha => ?_
    refine .look ?_ fun s' h => by rw [h.token]
    split
    · next hcomma =>
      refine .taking hts.scanned hcomma nofun fun u hu hu' => ?_
      have hlen := hts.length
      rw [hu, List.length_cons] at hlen
      refine .first ((hagain u hu' (by omega)).mono fun us h => ?_) fun as v hv => .pure hv
      rw [List.append_cons]
      exact h.behind _ fun vs as has => ⟨a :: as, by simpa using Separated.more ha has⟩
    · exact .pure hts.scanned.ne_nil

theorem follows_parenthesized : (parenthesized item).Follows (Parenthesized Item) where
  sound hs := sound_parenthesized hitem.sound hs
  pinpoints hs := by
    have hnone (i : Location) : Viable (Parenthesized Item) [⟨.punctuation .openParen, i⟩] :=
      (Viable.of_derives (.none (j := i))).shorten ⟨_, rfl⟩
    rw [← enclosed_commas hpasses hp]
    refine .mark hs (hnone .start).nil fun t i ht => .look ?_ fun s' h => by rw [h.token]
    split
    · rw [pure_bind]
      exact .mark ht (hnone i) fun u j hu => .pure hu.ne_nil
    · refine .closed (follows_commas hpasses hp hitem) ht (fun us h => ?_) fun ts as u j _ hu => .pure hu.ne_nil
      exact h.within [_] [⟨.punctuation .closeParen, i⟩] fun vs as has => ⟨as, .some has⟩

end

/-! ### Expressions -/

theorem pinpoints_literal (raw : String) (i : Location) (hs : s.lexemes ≠ []) :
    (literal raw i).Pinpoints s V := by
  unfold literal
  split
  · split
    · exact .pure hs
    · exact .throw nofun
  · split
    · exact .pure hs
    · exact .throw nofun

theorem follows_primary {inner : Parser Expr} (hpasses : inner.Passes Token.IsLeaf)
    (hinner : inner.Follows (Expression 0)) : (primary inner).Follows (Expression 7) where
  sound hs := sound_primary hinner.sound hs
  pinpoints hs := by
    refine .look ?_ fun s' h => by rw [h.token, h.loc]
    split
    · next ht => exact .taking hs ht nofun fun t _ ht => pinpoints_literal _ _ ht.ne_nil
    · next ht => exact .taking hs ht nofun fun t _ ht => .pure ht.ne_nil
    · next ht =>
      refine .taking hs ht nofun fun t _ ht => .look ?_ fun s' h => by rw [h.token]
      split
      · refine .last (follows_parenthesized hpasses nofun hinner) ht (fun us h => ?_) fun args u hu => .pure hu
        exact h.behind [_] fun vs args hargs => ⟨_, .call hargs⟩
      · exact .pure ht.ne_nil
    · next ht =>
      refine .taking hs ht nofun fun t _ ht => ?_
      refine .closed hinner ht (fun us h => ?_) fun us e u j _ hu => .pure hu.ne_nil
      exact h.within [_] [⟨.punctuation .closeParen, .start⟩] fun vs e he => ⟨_, .paren he⟩
    · exact .unexpected hs (viable_expression (Nat.le_refl 7))

/-- An expression of a level, and operators behind it. -/
theorem Links.derives {n : Nat} {ts us : List Lexeme} {left e : Expr} (h : Links n left us e)
    (hleft : Expression n ts left) : Expression n (ts ++ us) e := by
  induction h generalizing ts with
  | nil => rwa [List.append_nil]
  | cons hop hright _ ih =>
    obtain ⟨l, ts, rfl, hloc⟩ := hleft.exists_first
    rw [hloc] at ih
    simpa using ih (.binary hop hleft hright)

/-- The counter goes up by one, whatever is left. -/
theorem chainFrom_succ (n : Nat) (operand : Parser Expr) (bound : Nat) (left : Expr) :
    chainFrom n operand (bound + 1) left = (do
      let s ← get
      match BinaryOp.ofToken? n s.token with
      | none => return left
      | some op =>
        if maxHeight ≤ s.height then fail .tooDeep
        modify fun t => { t with height := t.height + 1 }
        advance
        let right ← operand
        chainFrom n operand bound (.binary left.loc op left right)) := by
  funext s
  show (match BinaryOp.ofToken? n s.token with
    | none => _
    | some op => _ : Parser Expr) s = (match BinaryOp.ofToken? n s.token with
    | none => _
    | some op => _ : Parser Expr) s
  cases BinaryOp.ofToken? n s.token with
  | none => rfl
  | some op =>
    dsimp only
    split
    · rfl
    · rfl

section

variable {n : Nat} {operand : Parser Expr} (hoperand : operand.Follows (Expression (n + 1)))

include hoperand

theorem pinpoints_chainFrom (bound : Nat) {left : Expr} (hs : Scanned s.lexemes) :
    (chainFrom n operand bound left).Pinpoints s (Viable (Links n left)) := by
  induction bound generalizing s left with
  | zero => exact .pure hs.ne_nil
  | succ bound ih =>
    rw [chainFrom_succ]
    refine .look ?_ fun s' h => by rw [h.token, h.height]
    split
    · exact .pure hs.ne_nil
    next op hop =>
    obtain ⟨hlevel, htoken⟩ := BinaryOp.ofToken?_eq_some.mp hop
    split
    · refine .of_error (bind_of_error rfl) ?_
      rintro _ _ ⟨⟩
    refine .still (.count hs.ne_nil fun ls => rfl) (.modify (.pure rfl)) fun _ t ht => ?_
    have htoken' : t.token = .operator op.token := by rw [Cursor.token, ht, ← Cursor.token, htoken]
    refine .taking (ht ▸ hs) htoken' (by simp) fun u _ hu => ?_
    refine .part hoperand hu (fun us h => ?_) fun us right v hus hright => (ih hus.scanned).mono fun vs h => ?_
    · exact h.behind [_] fun vs right hright => ⟨_, by simpa using Links.cons hlevel hright .nil⟩
    · have hmore := h.behind (⟨.operator op.token, t.loc⟩ :: us) fun ws e he =>
        ⟨e, Links.cons hlevel hright he⟩
      exact hmore

theorem pinpoints_chain (hs : Scanned s.lexemes) : (chain n operand).Pinpoints s (Viable (Expression n)) := by
  refine .part hoperand hs (fun us h => h.mono fun vs e he => ⟨e, .tighter he⟩) fun ts first t hts hfirst => ?_
  refine .look ?_ fun s' h => by rw [h.height]
  refine .first ((pinpoints_chainFrom hoperand _ hts.scanned).mono fun us h => ?_) fun e u hu =>
    .still (.count hu fun ls => rfl) (.modify (.pure rfl)) fun _ v hv => .pure (hv ▸ hu)
  exact h.behind ts fun vs e he => ⟨e, he.derives (.tighter hfirst)⟩

end

theorem follows_levelled {operand : Parser Expr} (hoperand : operand.Follows (Expression 6)) {n : Nat}
    (hn : n ≤ 6) : (levelled operand n).Follows (Expression n) := by
  refine levelled_induction (P := fun n r => r.Follows (Expression n)) hoperand (fun n hn ih => ?_) n hn
  refine ⟨fun hs => ?_, fun hs => pinpoints_chain ih hs⟩
  have hsound := sound_levelled hoperand.sound (Nat.le_of_lt hn) hs
  rwa [levelled_of_lt hn] at hsound

theorem follows_operand : ∀ room : Nat, (operand room).Follows (Expression 6)
  | 0 => ⟨sound_operand 0, fun _ => .fail nofun⟩
  | room + 1 => by
    refine ⟨sound_operand (room + 1), fun {s} hs => .nested hs fun t ht => ?_⟩
    have ht' : Scanned t.lexemes := ht ▸ hs
    refine .look ?_ fun s' h => by rw [h.token, h.loc]
    split
    · next op hop =>
      refine .taking ht' (UnaryOp.ofToken?_eq_some.mp hop) nofun fun u _ hu => ?_
      refine .last (follows_operand room) hu (fun us h => ?_) fun e v hv => .pure hv
      exact h.behind [_] fun vs e he => ⟨_, .unary he⟩
    · have hinner := follows_levelled (follows_operand room) (Nat.zero_le 6)
      exact ((follows_primary (passes_expression room) hinner).mono fun ts e => .tighter).pinpoints ht'

theorem follows_expression (room : Nat) : (expression room).Follows (Expression 0) :=
  follows_levelled (follows_operand room) (Nat.zero_le 6)

/-! ### Statements -/

/-- An expression and the mark behind it. -/
theorem pinpoints_terminated {room : Nat} {mark : Punctuation} {f : Expr → α} (hs : Scanned s.lexemes)
    (hV : ∀ us, Viable (Expression 0) us → V us) :
    (do let value ← expression room; expectMark mark; return f value : Parser α).Pinpoints s V :=
  .closed (follows_expression room) hs hV fun _ _ _ _ _ ht => .pure ht.ne_nil

theorem pinpoints_declaration {room : Nat} {ty : Ty} (hs : Scanned s.lexemes)
    (ht : s.token = .keyword (.type ty)) (hv : ty ≠ .void) :
    (declaration room).Pinpoints s (Viable Statement) := by
  have hinit (i j k : Location) (name : String) (us : List Lexeme) (h : Viable (Expression 0) us) :
      Viable Statement (⟨.keyword (.type ty), i⟩ :: ⟨.identifier name, j⟩ :: ⟨.operator .assign, k⟩ :: us) :=
    h.within [_, _, _] [⟨.punctuation .semicolon, .start⟩] fun vs e he => ⟨_, .declare hv he⟩
  have hempty := viable_expression (Nat.zero_le 7)
  refine .look ?_ fun s' h => by rw [h.loc]
  refine .take (.expectType hs viable_statement) (taken_expectType hs) fun ty' t hty => ?_
  obtain rfl : ty' = ty := by
    rw [Cursor.token_of_lexemes hty.eq] at ht
    cases ht
    rfl
  refine .take (.expectName hty.scanned ((hinit _ .start .start "a" [] hempty).shorten ⟨_, rfl⟩))
    (taken_expectName hty.scanned) fun name u hname => ?_
  refine .take (.expect hname.scanned nofun ((hinit _ _ .start _ [] hempty).shorten ⟨_, rfl⟩))
    (taken_expect hname.scanned nofun trivial) fun _ v hassign => ?_
  exact pinpoints_terminated hassign.scanned (hinit _ _ _ _)

theorem pinpoints_guarded {room : Nat} {block : Parser (List Stmt)} {f : Expr → List Stmt → Stmt}
    {word : Lexeme}
    (hrule : ∀ {ts us test body i j}, Expression 0 ts test → Braced Statement us body →
      Statement (word :: ⟨.punctuation .openParen, i⟩ :: ts ++ ⟨.punctuation .closeParen, j⟩ :: us)
        (f test body))
    (hblock : block.Follows (Braced Statement)) (hs : Scanned s.lexemes) :
    (do let test ← condition room; return f test (← block) : Parser Stmt).Pinpoints s
      fun us => Viable Statement (word :: us) := by
  have hempty := (viable_block .start (.of_derives .nil)).nil
  have hbody (i j : Location) {ts us : List Lexeme} {test : Expr} (htest : Expression 0 ts test)
      (h : Viable (Braced Statement) us) : Viable Statement
        (word :: ⟨.punctuation .openParen, i⟩ :: ts ++ ⟨.punctuation .closeParen, j⟩ :: us) := by
    rw [List.append_cons]
    exact h.behind _ fun vs body hvs => ⟨f test body, by simpa using hrule htest hvs⟩
  have htest (i : Location) (us : List Lexeme) (h : Viable (Expression 0) us) :
      Viable Statement (word :: ⟨.punctuation .openParen, i⟩ :: us) := by
    obtain ⟨vs, e, he⟩ := h
    exact (hbody i .start he hempty).shorten (by simp)
  simp only [condition, bind_assoc, pure_bind]
  refine .mark hs ((htest .start [] (viable_expression (Nat.zero_le 7))).shorten ⟨_, rfl⟩) fun t i ht => ?_
  refine .closed (follows_expression room) ht (htest i) fun ts test u j he hu => ?_
  exact .last hblock hu (fun us h => hbody i j he h) fun body w hw => .pure hw

/-- What is read with more tokens behind the first one is not read in front of that. -/
theorem not_stays {r : Parser α} {l : Lexeme} {us : List Lexeme} {a : α}
    (h : r.Reads (l :: us) [⟨.endOfInput, .start⟩] a) : ¬r.Stays s l := by
  intro hstays
  have hstays := hstays (us ++ [⟨.endOfInput, .start⟩])
  have h := h (by simp) { s with lexemes := l :: (us ++ [⟨.endOfInput, .start⟩]) } rfl
  cases hr : r { s with lexemes := l :: (us ++ [⟨.endOfInput, .start⟩]) } with
  | ok b t =>
    obtain ⟨-, rfl⟩ := h.ok hr
    simpa using hstays.ok hr
  | error e t =>
    rw [Meets, hr] at h hstays
    obtain ⟨wanted, got, hp⟩ := hstays
    exact Limit.problem_ne h wanted got hp

/-- A statement goes past the name that it starts with. -/
theorem not_stays_name {room : Nat} {name : String} {i j : Location} {next : Token} :
    ¬(if next = .operator .assign then do
        advance
        advance
        let value ← expression room
        expectMark .semicolon
        return .assign i name value
      else do
        let value ← expression room
        expectMark .semicolon
        return .eval value : Parser Stmt).Stays s ⟨.identifier name, j⟩ := by
  split
  · have hvalue := expression_var (Nat.zero_le 7) "a" .start
    exact not_stays (.advance (.advance (l := ⟨.operator .assign, .start⟩)
      (reads_terminated (i := .start) hvalue)))
  · have hvalue := expression_var (Nat.zero_le 7) name j
    exact not_stays (reads_terminated (i := .start) hvalue)

theorem follows_statement {room : Nat} {block : Parser (List Stmt)}
    (hblock : block.Follows (Braced Statement)) : (statement room block).Follows Statement := by
  refine ⟨sound_statement hblock.sound, fun {s} hs => ?_⟩
  have heval : (do let value ← expression room; expectMark .semicolon; return .eval value :
      Parser Stmt).Pinpoints s (Viable Statement) :=
    pinpoints_terminated hs fun us h =>
      h.within [] [⟨.punctuation .semicolon, .start⟩] fun vs e he => ⟨_, .eval he⟩
  refine .look_of ?_ fun ts l left hl hstays right => ?_
  · split
    · next ht => exact pinpoints_declaration hs ht nofun
    · next ht => exact pinpoints_declaration hs ht nofun
    · next ht => exact pinpoints_declaration hs ht nofun
    · next ht => exact .taking hs ht nofun fun t _ ht => pinpoints_guarded .cond hblock ht
    · next ht => exact .taking hs ht nofun fun t _ ht => pinpoints_guarded .loop hblock ht
    · next ht =>
      refine .taking hs ht nofun fun t _ ht => .look ?_ fun s' h => by rw [h.token]
      split
      · rw [pure_bind]
        refine .mark ht ?_ fun u i hu => .pure hu.ne_nil
        exact (Viable.of_derives (.leave (j := .start))).shorten ⟨_, rfl⟩
      · rw [bind_map_left]
        exact pinpoints_terminated ht fun us h =>
          h.within [_] [⟨.punctuation .semicolon, .start⟩] fun vs e he => ⟨_, .ret he⟩
    · refine .last hblock hs (fun us h => h.mono fun vs body hbody => ?_) fun body t ht => .pure ht
      obtain ⟨l, ws, rfl⟩ := hbody.exists_cons
      exact ⟨_, .block hbody⟩
    · next name ht =>
      split
      · next hnext =>
        refine .taking hs ht nofun fun t hlt ht => ?_
        have hassign := (Cursor.token_eq_nextToken hlt ht.ne_nil).trans hnext
        refine .taking ht hassign nofun fun u _ hu => pinpoints_terminated hu fun us h => ?_
        exact h.within [_, _] [⟨.punctuation .semicolon, .start⟩] fun vs e he => ⟨_, .assign he⟩
      · exact heval
    · exact heval
  · have hlooks := Cursor.looks_of_append hl right
    rw [hlooks.token, hlooks.loc]
    split <;> try rfl
    next name ht =>
      have hts : ts ≠ [] := by
        rintro rfl
        have hstays := hstays rfl
        have hl' : l = ⟨.identifier name, l.loc⟩ := by
          rw [← ht, Cursor.token_of_lexemes hl]
        rw [ht, hl'] at hstays
        exact not_stays_name hstays
      rw [Cursor.nextToken_of_append hl hts]

theorem follows_statements {stmt : Parser Stmt} (hpasses : stmt.Passes fun _ => False)
    (hstmt : stmt.Follows Statement) : (statements stmt).Follows (Many Statement) := by
  refine ⟨sound_statements hstmt.sound, .loop (statements_eq hpasses) fun s again hs hagain => ?_⟩
  refine .look ?_ fun s' h => by rw [h.token]
  split
  · exact .pure hs.ne_nil
  · exact .unexpected hs (.of_derives .nil)
  · refine .part hstmt hs (fun us h => h.mono fun vs a ha => ⟨_, .single ha⟩) fun ts a t hts ha => ?_
    have hlen := hts.length
    have hpos := List.length_pos_iff.mpr ha.ne_nil
    refine .first ((hagain t hts.scanned (by omega)).mono fun us h => ?_) fun as u hu => .pure hu
    exact h.behind ts fun vs as has => ⟨_, .cons ha has⟩

theorem follows_block : ∀ room : Nat, (block room).Follows (Braced Statement)
  | 0 => by
    refine ⟨sound_block 0, fun {s} hs => .mark hs ?_ fun t i ht => .fail nofun⟩
    exact (viable_block .start (.of_derives .nil)).nil
  | room + 1 => by
    refine ⟨sound_block (room + 1), fun {s} hs => .mark hs ?_ fun t i ht => ?_⟩
    · exact (viable_block .start (.of_derives .nil)).nil
    refine .still (.enter ht) (.enter (fun _ _ => rfl) fun _ => trivial) fun _ u hu => ?_
    have hpasses : (statement room (block room)).Passes _ := passes_statement (passes_block room)
    refine .part (follows_statements hpasses (follows_statement (follows_block room))) (hu ▸ ht)
      (fun us => viable_block i) fun ts body v hts hbody => ?_
    refine .still (.count hts.scanned.ne_nil fun ls => rfl) (.modify (.pure rfl)) fun _ w hw => ?_
    refine .mark (hw ▸ hts.scanned) ?_ fun x j hx => .pure hx.ne_nil
    rw [List.append_nil]
    exact viable_block i (.of_derives hbody)

/-! ### Programs -/

theorem follows_param : param.Follows Parameter := by
  refine ⟨sound_param, fun {s} hs => ?_⟩
  have hname (ty : Ty) (i : Location) : Viable Parameter [⟨.keyword (.type ty), i⟩] :=
    (Viable.of_derives (@Parameter.mk ty "a" i .start)).shorten ⟨_, rfl⟩
  refine .take (.expectType hs (hname .int .start).nil) (taken_expectType hs) fun ty t hty => ?_
  refine .look ?_ fun s' h => by rw [h.loc]
  exact .first (.expectName hty.scanned (hname ty _)) fun name u hu => .pure hu

theorem follows_function : function.Follows Definition := by
  refine ⟨sound_function, fun {s} hs => ?_⟩
  have hparams (i j k : Location) (ret : Ty) (name : String) (us : List Lexeme)
      (h : Viable (Parenthesized Parameter) us) :
      Viable Definition (⟨.keyword .func, i⟩ :: ⟨.keyword (.type ret), j⟩ :: ⟨.identifier name, k⟩ :: us) :=
    h.within [_, _, _] [⟨.punctuation .openBrace, .start⟩, ⟨.punctuation .closeBrace, .start⟩]
      fun vs params hvs => ⟨_, .mk hvs (.mk .nil)⟩
  have hempty : Viable (Parenthesized Parameter) [] :=
    (Viable.of_derives (.none (i := .start) (j := .start))).nil
  refine .look ?_ fun s' h => by rw [h.loc]
  refine .take (.expect hs nofun (hparams .start .start .start .int "a" [] hempty).nil)
    (taken_expect hs nofun trivial) fun _ t hfunc => ?_
  refine .take (.expectType hfunc.scanned ((hparams _ .start .start .int "a" [] hempty).shorten ⟨_, rfl⟩))
    (taken_expectType hfunc.scanned) fun ret u hret => ?_
  refine .take (.expectName hret.scanned ((hparams _ _ .start _ "a" [] hempty).shorten ⟨_, rfl⟩))
    (taken_expectName hret.scanned) fun name v hname => ?_
  refine .part (follows_parenthesized passes_param nofun follows_param) hname.scanned (hparams _ _ _ _ _)
    fun ts params w hts hderives => ?_
  refine .last (follows_block maxNesting) hts.scanned (fun us h => ?_) fun body x hx => .pure hx
  exact h.behind (_ :: _ :: _ :: ts) fun vs body hbody => ⟨_, .mk hderives hbody⟩

theorem follows_decl : decl.Follows Declaration := by
  refine ⟨sound_decl, fun {s} hs => .look ?_ fun s' h => by rw [h.token]⟩
  split
  · exact .map ((follows_function.pinpoints hs).mono fun us h => h.mono fun vs f hf => ⟨_, .function hf⟩)
  · refine .map (((follows_statement (follows_block maxNesting)).pinpoints hs).mono fun us h => ?_)
    exact h.mono fun vs stmt hstmt => ⟨_, .stmt hstmt⟩

theorem pinpoints_program (hs : Scanned s.lexemes) : program.Pinpoints s (Viable Sentence) := by
  refine .loop program_eq (fun s again hs hagain => ?_) hs
  refine .look ?_ fun s' h => by rw [h.token]
  split
  · exact .pure hs.ne_nil
  · refine .part follows_decl hs (fun us h => h.mono fun vs d hd => ⟨_, .single hd⟩) fun ts d t hts hd => ?_
    have hlen := hts.length
    have hpos := List.length_pos_iff.mpr hd.ne_nil
    refine .first ((hagain t hts.scanned (by omega)).mono fun us h => ?_) fun ds u hu => .pure hu
    exact h.behind ts fun vs ds hds => ⟨_, .cons hd hds⟩

end Parser

/-- A sentence and the end of input behind it. -/
def Grammar.Whole (ts : List Lexeme) (p : Program) : Prop :=
  ∃ body i, ts = body ++ [⟨.endOfInput, i⟩] ∧ Sentence body p

/-- The other messages do not start so. -/
theorem SyntaxError.exists_unexpected {e : SyntaxError} (h : "Expected ".toList <+: e.message.toList) :
    ∃ wanted got, e.problem = .unexpected wanted got := by
  cases hp : e.problem with
  | unexpected wanted got => exact ⟨wanted, got, rfl⟩
  | tooDeep | integerRange | notFloat =>
    rw [message, hp] at h
    simp at h

namespace Program

variable {ls : List Lexeme} {e : SyntaxError} {wanted : Expected} {got : Token}

/-- The tokens in front of an unexpected one start a sentence, and with that one behind them they do not. -/
theorem misfit_of_ofLexemes (hls : Scanned ls) (he : ofLexemes ls = .error e)
    (hp : e.problem = .unexpected wanted got) :
    ∃ ts l left, ls = ts ++ l :: left ∧ e = ⟨.unexpected wanted l.token, l.loc⟩ ∧ Viable Whole ts ∧
      ¬Viable Whole (ts ++ [l]) := by
  have hread : ∃ t, Parser.program { lexemes := ls } = .error e t := by
    unfold ofLexemes at he
    split at he
    · cases he
    · next e' t h =>
      cases he
      exact ⟨t, h⟩
  obtain ⟨t, hread⟩ := hread
  obtain ⟨ts, l, left, hts, heq, hviable, hright⟩ :=
    (Parser.pinpoints_program (s := { lexemes := ls }) hls).error hread wanted got hp
  refine ⟨ts, l, left, hts, heq, ?_, ?_⟩
  · exact hviable.within [] [⟨.endOfInput, .start⟩] fun us p h => ⟨p, us, .start, rfl, h⟩
  · rintro ⟨us, p, body, i, hwhole, hsentence⟩
    -- with the same token behind the same tokens there is the same error
    obtain ⟨u, hsame⟩ := hright us
    have he' : ofLexemes (body ++ [⟨.endOfInput, i⟩]) = .error e := by
      rw [← hwhole, List.append_assoc, List.singleton_append, ofLexemes]
      simp only [hsame]
    rcases ofLexemes_of_sentence (i := i) hsentence with hok | ⟨e', herror, hlimit⟩
    · cases he'.symm.trans hok
    · cases he'.symm.trans herror
      exact hlimit.problem_ne wanted got hp

end Program

namespace Source

/-- An error about a token that is not expected is that of the first token with which the tokens so far start no
sentence. In front of it they do. -/
theorem unexpected_isLeast {source : String} {ls : List Lexeme} {e : SyntaxError}
    (hls : Token.scan source = .ok ls) (he : Program.ofLexemes ls = .error e)
    (hform : "Expected ".toList <+: e.message.toList) :
    ∃ k l wanted, ls[k]? = some l ∧ e.loc = l.loc ∧
      e.message = "Expected " ++ Expected.describe wanted ++ ", got " ++ l.token.describe ∧
      IsLeast {k | ¬Viable Whole (ls.take (k + 1))} k ∧ Viable Whole (ls.take k) := by
  obtain ⟨wanted, got, hp⟩ := SyntaxError.exists_unexpected hform
  obtain ⟨ts, l, left, rfl, rfl, hviable, hmisfit⟩ :=
    Program.misfit_of_ofLexemes (Token.scanned_of_scan hls) he hp
  have htake : (ts ++ l :: left).take (ts.length + 1) = ts ++ [l] := by
    rw [List.append_cons, List.take_left' (by simp)]
  have hget : (ts ++ l :: left)[ts.length]? = some l := by
    rw [List.getElem?_append_right (Nat.le_refl _), Nat.sub_self]
    rfl
  refine ⟨ts.length, l, wanted, hget, rfl, rfl, ⟨?_, fun j hj => ?_⟩, ?_⟩
  · show ¬Viable Whole _
    rw [htake]
    exact hmisfit
  · by_contra hlt
    refine hj (hviable.shorten ?_)
    rw [List.take_append_of_le_length (by omega)]
    exact List.take_prefix _ _
  · rw [List.take_left]
    exact hviable

/-- A statement without a semicolon. -/
def unclosed : String := "func void main() { turn_left() }"

theorem unexpected_isLeast_unclosed : ∃ ls e, Token.scan unclosed = .ok ls ∧
    Program.ofLexemes ls = .error e ∧ e.message = "Expected ';', got '\x7d'" ∧
      ∃ k l wanted, ls[k]? = some l ∧ e.loc = l.loc ∧
        e.message = "Expected " ++ Expected.describe wanted ++ ", got " ++ l.token.describe ∧
        IsLeast {k | ¬Viable Whole (ls.take (k + 1))} k ∧ Viable Whole (ls.take k) := by
  obtain ⟨ls, hls, hread⟩ := Except.any_toOption (x := Token.scan unclosed)
    (q := fun ls => match Program.ofLexemes ls with
      | .error e => e.message = "Expected ';', got '\x7d'"
      | .ok _ => false) (by decide +kernel)
  split at hread
  · next e he =>
    have hmessage := of_decide_eq_true hread
    refine ⟨ls, e, hls, he, hmessage, unexpected_isLeast hls he ?_⟩
    rw [hmessage]
    decide
  · cases hread

end Source

end Labyrinth
