import Labyrinth.Proofs.Parsing.Grammar
import Labyrinth.Proofs.Parsing.Readers
import Labyrinth.Proofs.Parsing.Scanned

/-!
# What has a derivation is read

Of tokens that derive something, and behind which no more of it can stand, a reader takes all and gives
what they derive, or it meets a limit (`Parser.Reads`). The induction is on the number of levels that
may still be opened, and at each level on the derivation.
-/

namespace Labyrinth

open Grammar

/-- A limit that is met in tokens: of nesting, or of the literals among them. -/
def Limit (ts : List Lexeme) (e : SyntaxError) : Prop :=
  e.problem = .tooDeep ∨ ∃ raw i, e = ⟨.integerRange raw, i⟩ ∧ ⟨.number raw, i⟩ ∈ ts ∧
    Text.IsDigits raw.toList ∧ 2 ^ 63 ≤ Text.digitsValue raw.toList

theorem Limit.mono {ts us : List Lexeme} {e : SyntaxError} (h : Limit ts e) (hsub : ts ⊆ us) :
    Limit us e := by
  rcases h with h | ⟨raw, i, he, hmem, h⟩
  · exact .inl h
  · exact .inr ⟨raw, i, he, hsub hmem, h⟩

namespace Parser

variable {α β : Type} {ts us rest : List Lexeme} {l : Lexeme} {a : α} {b : β} {i : Location}

/-- The tokens `ts` in front of the others are read, and nothing else changes. -/
def Reads (r : Parser α) (ts rest : List Lexeme) (a : α) : Prop :=
  rest ≠ [] → ∀ s, s.lexemes = ts ++ rest →
    r.Meets s (fun b t => b = a ∧ t = { s with lexemes := rest }) (Limit ts)

namespace Reads

theorem pure : (pure a : Parser α).Reads [] rest a := by
  intro _ s hs
  exact ⟨rfl, by rw [← show s.lexemes = rest from hs]⟩

theorem bind {r : Parser α} {f : α → Parser β} (hr : r.Reads ts (us ++ rest) a)
    (hf : (f a).Reads us rest b) : (r >>= f).Reads (ts ++ us) rest b := by
  intro hne s hs
  rw [List.append_assoc] at hs
  refine .bind (.mono (hr (by simp [hne]) s hs) (fun _ _ => id) fun e he =>
    he.mono (List.subset_append_left ts us)) ?_
  rintro _ _ ⟨rfl, rfl⟩
  exact .mono (hf hne _ rfl) (fun _ _ => id) fun e he => he.mono (List.subset_append_right ts us)

theorem cons {r : Parser α} {f : α → Parser β} (hr : r.Reads [l] (us ++ rest) a)
    (hf : (f a).Reads us rest b) : (r >>= f).Reads (l :: us) rest b :=
  bind hr hf

theorem last {r : Parser α} {f : α → Parser β} (hr : r.Reads ts rest a)
    (hf : (f a).Reads [] rest b) : (r >>= f).Reads ts rest b := by
  have h : (r >>= f).Reads (ts ++ []) rest b := bind hr hf
  rwa [List.append_nil] at h

theorem get {f : Cursor → Parser β} (h : ∀ s, s.lexemes = ts ++ rest → (f s).Reads ts rest b) :
    (get >>= f).Reads ts rest b :=
  fun hne s hs => .get (h s hs hne s hs)

theorem map {r : Parser α} {f : α → β} (h : r.Reads ts rest a) : (f <$> r).Reads ts rest (f a) := by
  intro hne s hs
  refine .map (.mono (h hne s hs) ?_ fun _ => id)
  rintro _ t ⟨rfl, ht⟩
  exact ⟨rfl, ht⟩

theorem advance {f : Unit → Parser β} (h : (f ()).Reads us rest b) :
    (advance >>= f).Reads (l :: us) rest b := by
  intro hne s hs
  refine .advance ?_
  rw [Cursor.advance_of_lexemes hs (by simp [hne])]
  exact .mono (h hne _ rfl) (fun _ _ => id) fun e he => he.mono (List.subset_cons_self l us)

theorem nested {r : Parser α} (h : r.Reads ts rest a) : (nested r).Reads ts rest a := by
  intro hne s hs
  refine .nested (fun _ _ => .mono (h hne _ hs) ?_ fun _ => id) fun _ => .inl rfl
  rintro _ _ ⟨rfl, rfl⟩
  exact ⟨rfl, rfl⟩

theorem level {r : Parser α} {f : α → Parser β} (hr : r.Reads ts (us ++ rest) a)
    (hf : (f a).Reads us rest b) :
    (do enter; let x ← r; modify leave; f x : Parser β).Reads (ts ++ us) rest b := by
  intro hne s hs
  rw [List.append_assoc] at hs
  refine .bind (Q := fun _ t => t = { s with depth := s.depth + 1, height := s.height + 1 })
    (.enter (fun _ _ => rfl) fun _ => .inl rfl) ?_
  rintro _ _ rfl
  refine .bind (.mono (hr (by simp [hne]) _ hs) (fun _ _ => id) fun e he =>
    he.mono (List.subset_append_left ts us)) ?_
  rintro _ _ ⟨rfl, rfl⟩
  exact .modify (.mono (hf hne _ rfl) (fun _ _ => id) fun e he =>
    he.mono (List.subset_append_right ts us))

theorem expect {t : Token} : (expect t).Reads [⟨t, i⟩] rest () := by
  intro hne s hs
  exact .mono (.expect_of_lexemes hs hne) (fun _ _ h => ⟨rfl, h⟩) fun _ => id

theorem expectName {wanted : Expected} {name : String} :
    (expectName wanted).Reads [⟨.identifier name, i⟩] rest name := by
  refine get fun s hs => ?_
  rw [Cursor.token_of_lexemes hs]
  exact advance pure

theorem expectType {ty : Ty} : expectType.Reads [⟨.keyword (.type ty), i⟩] rest ty := by
  refine get fun s hs => ?_
  rw [Cursor.token_of_lexemes hs]
  exact advance pure

end Reads

/-! ### Lists -/

theorem length_separated {Item : List Lexeme → α → Prop} {as : List α}
    (h : Separated Item ts as) : as.length ≤ ts.length + 1 := by
  induction h with
  | last => simp
  | more _ _ ih => simp; omega

theorem reads_sepByComma {Item : List Lexeme → α → Prop} {item : Parser α} {as : List α}
    (hitem : ∀ {ts a l rest}, Item ts a → (∃ i, l = ⟨.punctuation .comma, i⟩ ∨
      l = ⟨.punctuation .closeParen, i⟩) → item.Reads ts (l :: rest) a)
    (h : Separated Item ts as) :
    (sepByComma item).Reads ts (⟨.punctuation .closeParen, i⟩ :: rest) as := by
  have hgo : ∀ bound, as.length ≤ bound →
      (sepByComma.go item bound).Reads ts (⟨.punctuation .closeParen, i⟩ :: rest) as := by
    induction h with
    | last ha =>
      rintro (_ | bound) hb
      · cases hb
      refine .last (hitem ha ⟨i, .inr rfl⟩) (.get fun s hs => ?_)
      rw [Cursor.token_of_lexemes hs]
      exact .pure
    | @more ts us a as j ha has ih =>
      rintro (_ | bound) hb
      · cases hb
      refine .bind (hitem ha ⟨j, .inl rfl⟩) (.get fun s hs => ?_)
      rw [Cursor.token_of_lexemes hs]
      exact .advance (.last (ih bound (Nat.le_of_succ_le_succ hb)) .pure)
  refine .get fun s hs => hgo _ ?_
  rw [hs, List.length_append, List.length_cons]
  have := length_separated h
  omega

theorem length_many {Item : List Lexeme → α → Prop} {as : List α}
    (hitem : ∀ {ts a}, Item ts a → ts ≠ []) (h : Many Item ts as) : as.length ≤ ts.length := by
  induction h with
  | nil => exact Nat.le_refl 0
  | cons ha _ ih =>
    have := List.length_pos_iff.mpr (hitem ha)
    rw [List.length_cons, List.length_append]
    omega

theorem reads_parenthesized {Item : List Lexeme → α → Prop} {item : Parser α} {as : List α}
    (hitem : ∀ {ts a l rest}, Item ts a → (∃ i, l = ⟨.punctuation .comma, i⟩ ∨
      l = ⟨.punctuation .closeParen, i⟩) → item.Reads ts (l :: rest) a)
    (hfirst : ∀ {ts a}, Item ts a → ∃ t us, ts = t :: us ∧ t.token ≠ .punctuation .closeParen)
    (h : Parenthesized Item ts as) : (parenthesized item).Reads ts rest as := by
  cases h with
  | none =>
    refine .cons .expect (.get fun s hs => ?_)
    rw [Cursor.token_of_lexemes hs, if_pos rfl, pure_bind]
    exact .last .expect .pure
  | @some ts as i j has =>
    refine .cons .expect (.get fun s hs => ?_)
    have hs' : s.token ≠ .punctuation .closeParen := by
      obtain ⟨t, us, rfl, ht⟩ : ∃ t us, ts = t :: us ∧ t.token ≠ .punctuation .closeParen := by
        cases has with
        | last ha => exact hfirst ha
        | more ha _ =>
          obtain ⟨t, us, rfl, ht⟩ := hfirst ha
          exact ⟨t, _, rfl, ht⟩
      rw [Cursor.token_of_lexemes hs]
      exact ht
    rw [if_neg hs']
    exact .bind (reads_sepByComma hitem has) (.last .expect .pure)

/-! ### Expressions -/

/-- A token behind an expression of a level, which goes on with neither an operator of this level or a
tighter one nor with arguments. -/
def Stops (n : Nat) (t : Token) : Prop :=
  t ≠ .punctuation .openParen ∧ ∀ op : BinaryOp, n ≤ op.level → t ≠ .operator op.token

theorem Stops.mono {n m : Nat} {t : Token} (h : Stops n t) (hnm : n ≤ m) : Stops m t :=
  ⟨h.1, fun op hop => h.2 op (Nat.le_trans hnm hop)⟩

theorem Stops.ofToken?_eq_none {n : Nat} {t : Token} (h : Stops n t) :
    BinaryOp.ofToken? n t = none := by
  cases hop : BinaryOp.ofToken? n t with
  | none => rfl
  | some op =>
    obtain ⟨hlevel, ht⟩ := BinaryOp.ofToken?_eq_some.mp hop
    exact absurd ht (h.2 op (Nat.le_of_eq hlevel.symm))

theorem stops_punctuation {n : Nat} {mark : Punctuation} (h : mark ≠ .openParen) :
    Stops n (.punctuation mark) :=
  ⟨fun he => h (by cases he; rfl), nofun⟩

theorem stops_operator (op : BinaryOp) : Stops (op.level + 1) (.operator op.token) := by
  refine ⟨nofun, fun op' hop he => ?_⟩
  have hlevel : op = op' := by cases op <;> cases op' <;> simp_all [BinaryOp.token]
  subst hlevel
  omega

theorem reads_int {raw : String} (hd : Text.IsDigits raw.toList) :
    (do advance; literal raw i : Parser Expr).Reads [⟨.number raw, i⟩] rest
      (.int i (.ofNat (Text.digitsValue raw.toList))) := by
  intro hne s hs
  have hdot : ¬ raw.toList.contains '.' := by
    intro hdot
    exact absurd (hd.2 '.' (by simpa using hdot)) (by decide)
  refine .advance ?_
  rw [Cursor.advance_of_lexemes hs hne, literal, if_neg hdot, hd.int64?]
  split
  · next value hv =>
    split at hv
    · cases hv
      exact .pure ⟨rfl, rfl⟩
    · cases hv
  · next hv =>
    split at hv
    · cases hv
    · next hlarge =>
      exact .inr ⟨raw, i, rfl, List.mem_singleton_self _, hd, Nat.le_of_not_lt hlarge⟩

theorem reads_float {raw : String} {value : Float} (hdot : '.' ∈ raw.toList)
    (hv : Double.ofChars? raw.toList = some value) :
    (do advance; literal raw i : Parser Expr).Reads [⟨.number raw, i⟩] rest (.float i raw value) := by
  refine .advance ?_
  rw [literal, if_pos (by simpa using hdot), hv]
  exact .pure

theorem reads_primary {inner : Parser Expr} {e : Expr}
    (hinner : ∀ {ts e l rest}, Expression 0 ts e → Stops 0 l.token → inner.Reads ts (l :: rest) e)
    (h : Expression 7 ts e) (hl : Stops 7 l.token) : (primary inner).Reads ts (l :: rest) e := by
  refine .get fun s hs => ?_
  cases h with
  | tighter h => exact absurd h.level_le (by decide)
  | @binary _ op _ _ _ _ _ _ hlevel => exact absurd (hlevel ▸ op.level_lt) (by decide)
  | int hne hd =>
    rw [Cursor.token_of_lexemes hs, Cursor.loc_of_lexemes hs]
    exact reads_int ⟨hne, hd⟩
  | float hdot hv =>
    rw [Cursor.token_of_lexemes hs, Cursor.loc_of_lexemes hs]
    exact reads_float hdot hv
  | bool =>
    rw [Cursor.token_of_lexemes hs, Cursor.loc_of_lexemes hs]
    exact .advance .pure
  | var =>
    rw [Cursor.token_of_lexemes hs, Cursor.loc_of_lexemes hs]
    refine .advance (.get fun s hs => ?_)
    rw [Cursor.token_of_lexemes hs, if_neg hl.1]
    exact .pure
  | call hargs =>
    rw [Cursor.token_of_lexemes hs, Cursor.loc_of_lexemes hs]
    refine .advance (.get fun s hs => ?_)
    have htoken : s.token = .punctuation .openParen := by
      obtain ⟨j, us, rfl⟩ := hargs.exists_cons
      exact Cursor.token_of_lexemes hs
    rw [if_pos htoken]
    refine .last (reads_parenthesized ?_ ?_ hargs) .pure
    · rintro ts a l rest he ⟨j, rfl | rfl⟩
      · exact hinner he (stops_punctuation nofun)
      · exact hinner he (stops_punctuation nofun)
    · intro ts a he
      obtain ⟨t, us, rfl, ht⟩ := he.exists_starts
      exact ⟨t, us, rfl, fun h => by simp [h, Starts] at ht⟩
  | paren he =>
    rw [Cursor.token_of_lexemes hs, Cursor.loc_of_lexemes hs]
    exact .advance (.bind (hinner he (stops_punctuation nofun)) (.last .expect .pure))

/-- Operators of a level and their right operands, which make an expression longer. -/
inductive Links (n : Nat) : Expr → List Lexeme → Expr → Prop
  | nil {e} : Links n e [] e
  | cons {op us vs left right e i} : op.level = n → Expression (n + 1) us right →
      Links n (.binary left.loc op left right) vs e →
      Links n left (⟨.operator op.token, i⟩ :: us ++ vs) e

theorem Links.snoc {n : Nat} {op : BinaryOp} {left e right : Expr} (h : Links n left ts e)
    (hop : op.level = n) (hright : Expression (n + 1) us right) :
    Links n left (ts ++ ⟨.operator op.token, i⟩ :: us) (.binary e.loc op e right) := by
  induction h with
  | @nil e =>
    have h : Links n e (⟨.operator op.token, i⟩ :: us ++ []) (.binary e.loc op e right) :=
      .cons hop hright .nil
    rwa [List.append_nil] at h
  | cons hop' hright' _ ih => simpa using Links.cons hop' hright' ih

/-- An expression of a level is a first operand and what makes it longer. -/
theorem exists_links : ∀ {n : Nat} {ts : List Lexeme} {e : Expr}, Expression n ts e → n < 6 →
    ∃ us first vs, ts = us ++ vs ∧ Expression (n + 1) us first ∧ Links n first vs e
  | _, ts, e, .tighter h, _ => ⟨ts, e, [], (List.append_nil ts).symm, h, .nil⟩
  | _, _, _, .binary hop hleft hright, hn => by
    obtain ⟨us, first, vs, he, hfirst, hlinks⟩ := exists_links hleft hn
    obtain ⟨t, ts, he', hloc⟩ := hleft.exists_first
    cases he'
    rw [← hloc, he]
    exact ⟨us, first, _, List.append_assoc .., hfirst, hlinks.snoc hop hright⟩

theorem Links.stops {n : Nat} {left e : Expr} (h : Links n left ts e) (rest : List Lexeme)
    (hl : Stops n l.token) :
    ∃ l' us, ts ++ l :: rest = l' :: us ∧ Stops (n + 1) l'.token := by
  cases h with
  | nil => exact ⟨l, rest, rfl, hl.mono (Nat.le_succ n)⟩
  | @cons op _ _ _ _ _ _ hop => exact ⟨_, _, rfl, hop ▸ stops_operator op⟩

/-- The bound of a chain is not reached, since the height is checked in front of each operator. -/
theorem meets_chainFrom {n : Nat} {operand : Parser Expr}
    (hoperand : ∀ {ts e l rest}, Expression (n + 1) ts e → Stops (n + 1) l.token →
      operand.Reads ts (l :: rest) e)
    {left e : Expr} (h : Links n left ts e) (hl : Stops n l.token) :
    ∀ {bound : Nat} {s : Cursor}, s.lexemes = ts ++ l :: rest → 0 < bound →
      maxHeight < s.height + bound → (chainFrom n operand bound left).Meets s
        (fun b t => b = e ∧ t.lexemes = l :: rest ∧ t.depth = s.depth) (Limit ts) := by
  induction h with
  | nil =>
    rintro (_ | bound) s hs hb -
    · cases hb
    refine .get ?_
    rw [Cursor.token_of_lexemes hs, hl.ofToken?_eq_none]
    exact .pure ⟨rfl, hs, rfl⟩
  | @cons op us vs left right e i hop hright hlinks ih =>
    rintro (_ | bound) s hs hb hheight
    · cases hb
    obtain ⟨l', us', he, hl'⟩ := hlinks.stops rest hl
    refine .get ?_
    rw [Cursor.token_of_lexemes hs, BinaryOp.ofToken?_eq_some.mpr ⟨hop, rfl⟩]
    dsimp only
    split
    · exact .bind (Q := fun _ _ => False) (.fail (.inl rfl)) nofun
    next hlow =>
    have hread : (do advance; operand : Parser Expr).Reads (⟨.operator op.token, i⟩ :: us)
        (l' :: us') right := .advance (hoperand hright hl')
    have hs' : s.lexemes = ⟨.operator op.token, i⟩ :: us ++ l' :: us' := by
      rw [hs, ← he, List.append_assoc]
    refine .set ?_
    rw [← bind_assoc]
    refine .bind (.mono (hread (by simp) _ hs') (fun _ _ => id) fun e he =>
      he.mono (List.subset_append_left _ vs)) ?_
    rintro _ _ ⟨rfl, rfl⟩
    refine .mono (ih he.symm ?_ ?_) (fun _ _ => id) fun e he =>
      he.mono (List.subset_append_right _ vs)
    · omega
    · show maxHeight < s.height + 1 + bound
      omega

theorem reads_chain {n : Nat} {operand : Parser Expr} {e : Expr} (hn : n < 6)
    (hoperand : ∀ {ts e l rest}, Expression (n + 1) ts e → Stops (n + 1) l.token →
      operand.Reads ts (l :: rest) e)
    (h : Expression n ts e) (hl : Stops n l.token) : (chain n operand).Reads ts (l :: rest) e := by
  obtain ⟨us, first, vs, rfl, hfirst, hlinks⟩ := exists_links h hn
  obtain ⟨l', us', he, hl'⟩ := hlinks.stops rest hl
  intro hne s hs
  rw [List.append_assoc, he] at hs
  refine .bind (.mono (hoperand hfirst hl' (by simp) s hs) (fun _ _ => id) fun e he =>
    he.mono (List.subset_append_left us vs)) ?_
  rintro _ _ ⟨rfl, rfl⟩
  refine .get (.bind (.mono (meets_chainFrom hoperand hlinks hl he.symm ?_ ?_) (fun _ _ => id)
    fun e he => he.mono (List.subset_append_right us vs)) ?_)
  · decide
  · show maxHeight < s.height + (maxHeight + 1)
    omega
  · rintro _ t ⟨rfl, ht, hd⟩
    refine .modify (.pure ⟨rfl, ?_⟩)
    cases t
    simp_all

theorem reads_levelled {operand : Parser Expr}
    (hoperand : ∀ {ts e l rest}, Expression 6 ts e → Stops 6 l.token →
      operand.Reads ts (l :: rest) e) {n : Nat} (hn : n ≤ 6) :
    ∀ {ts e l rest}, Expression n ts e → Stops n l.token →
      (levelled operand n).Reads ts (l :: rest) e :=
  levelled_induction (P := fun n r => ∀ {ts e l rest}, Expression n ts e → Stops n l.token →
    r.Reads ts (l :: rest) e) hoperand (fun _ hn ih _ _ _ _ => reads_chain hn ih) n hn

/-- An expression without operators starts with no prefix operator. -/
theorem ofToken?_primary {e : Expr} (h : Expression 7 ts e) :
    ∃ t us, ts = t :: us ∧ UnaryOp.ofToken? t.token = none := by
  cases h with
  | tighter h => exact absurd h.level_le (by decide)
  | @binary _ op _ _ _ _ _ _ hlevel => exact absurd (hlevel ▸ op.level_lt) (by decide)
  | _ => exact ⟨_, _, rfl, rfl⟩

theorem reads_operand : ∀ (room : Nat) {ts : List Lexeme} {e : Expr} {l : Lexeme}
    {rest : List Lexeme}, Expression 6 ts e → Stops 6 l.token →
    (operand room).Reads ts (l :: rest) e
  | 0, _, _, _, _, _, _ => fun _ _ _ => .fail (.inl rfl)
  | room + 1, ts, e, l, rest, h, hl => by
    refine .nested (.get fun s hs => ?_)
    cases h with
    | @binary _ op _ _ _ _ _ _ hlevel => exact absurd (hlevel ▸ op.level_lt) (by decide)
    | unary h =>
      rw [Cursor.token_of_lexemes hs, Cursor.loc_of_lexemes hs, UnaryOp.ofToken?_eq_some.mpr rfl]
      exact .advance (.last (reads_operand room h hl) .pure)
    | tighter h =>
      have hnone : UnaryOp.ofToken? s.token = none := by
        obtain ⟨t, us, rfl, ht⟩ := ofToken?_primary h
        rw [Cursor.token_of_lexemes hs, ht]
      rw [hnone]
      exact reads_primary (reads_levelled (reads_operand room) (Nat.zero_le 6)) h
        (hl.mono (Nat.le_succ 6))

theorem reads_expression (room : Nat) {e : Expr} (h : Expression 0 ts e) (hl : Stops 0 l.token) :
    (expression room).Reads ts (l :: rest) e :=
  reads_levelled (reads_operand room) (Nat.zero_le 6) h hl

/-! ### Statements -/

theorem reads_terminated {room : Nat} {e : Expr} {f : Expr → Stmt} (h : Expression 0 ts e) :
    (do let value ← expression room; expectMark .semicolon; return f value : Parser Stmt).Reads
      (ts ++ [⟨.punctuation .semicolon, i⟩]) rest (f e) :=
  .bind (reads_expression room h (stops_punctuation nofun)) (.last .expect .pure)

theorem reads_condition {room : Nat} {e : Expr} {j : Location} (h : Expression 0 ts e) :
    (condition room).Reads
      (⟨.punctuation .openParen, i⟩ :: ts ++ [⟨.punctuation .closeParen, j⟩]) rest e :=
  .cons .expect (.bind (reads_expression room h (stops_punctuation nofun)) (.last .expect .pure))

theorem reads_guarded {room : Nat} {block : Parser (List Stmt)} {f : Expr → List Stmt → Stmt}
    {e : Expr} {body : List Stmt} {j : Location} (he : Expression 0 ts e)
    (hblock : block.Reads us rest body) :
    (do let test ← condition room; return f test (← block) : Parser Stmt).Reads
      (⟨.punctuation .openParen, i⟩ :: ts ++ ⟨.punctuation .closeParen, j⟩ :: us) rest (f e body) := by
  rw [List.append_cons]
  exact .bind (reads_condition he) (.last hblock .pure)

theorem reads_statement {room : Nat} {block : Parser (List Stmt)} {stmt : Stmt}
    (hblock : ∀ {ts body rest}, Braced Statement ts body → block.Reads ts rest body)
    (h : Statement ts stmt) : (statement room block).Reads ts rest stmt := by
  refine .get fun s hs => ?_
  cases h with
  | @declare ty name ts init i j k m hv hinit =>
    have hread : (declaration room).Reads (⟨.keyword (.type ty), i⟩ :: ⟨.identifier name, j⟩ ::
        ⟨.operator .assign, k⟩ :: ts ++ [⟨.punctuation .semicolon, m⟩]) rest
        (.declare i ty name init) := by
      refine .get fun s hs => ?_
      rw [Cursor.loc_of_lexemes hs]
      exact .cons .expectType (.cons .expectName (.cons .expect (reads_terminated hinit)))
    rw [Cursor.token_of_lexemes hs]
    cases ty with
    | void => exact absurd rfl hv
    | _ => exact hread
  | assign hvalue =>
    rw [Cursor.token_of_lexemes hs, Cursor.loc_of_lexemes hs]
    rw [Cursor.nextToken_of_lexemes hs]
    exact .advance (.advance (reads_terminated hvalue))
  | cond htest hbody =>
    rw [Cursor.token_of_lexemes hs, Cursor.loc_of_lexemes hs]
    exact .advance (reads_guarded htest (hblock hbody))
  | loop htest hbody =>
    rw [Cursor.token_of_lexemes hs, Cursor.loc_of_lexemes hs]
    exact .advance (reads_guarded htest (hblock hbody))
  | leave =>
    rw [Cursor.token_of_lexemes hs, Cursor.loc_of_lexemes hs]
    refine .advance (.get fun s hs => ?_)
    rw [Cursor.token_of_lexemes hs, if_pos rfl, pure_bind]
    exact .last .expect .pure
  | ret hvalue =>
    rw [Cursor.token_of_lexemes hs, Cursor.loc_of_lexemes hs]
    refine .advance (.get fun s hs => ?_)
    have hs' : s.token ≠ .punctuation .semicolon := by
      obtain ⟨t, us, rfl, ht⟩ := hvalue.exists_starts
      rw [Cursor.token_of_lexemes hs]
      intro he
      simp [he, Starts] at ht
    rw [if_neg hs', bind_map_left]
    exact reads_terminated hvalue
  | @eval ts value i hvalue =>
    have hread : (do let value ← expression room; expectMark .semicolon; return .eval value :
        Parser Stmt).Reads (ts ++ [⟨.punctuation .semicolon, i⟩]) rest (.eval value) :=
      reads_terminated hvalue
    obtain ⟨⟨t, j⟩, us, rfl, ht⟩ := hvalue.exists_starts
    rw [Cursor.token_of_lexemes hs]
    -- Only an identifier may also be the start of an assignment.
    cases t with
    | identifier name =>
      have hnext : s.nextToken ≠ .operator .assign := by
        have hsecond := hvalue.second_ne rfl
        cases us with
        | nil =>
          rw [Cursor.nextToken_of_lexemes hs]
          intro he
          cases he
        | cons l us =>
          rw [Cursor.nextToken_of_lexemes hs]
          exact hsecond l rfl
      dsimp only
      rw [if_neg hnext]
      exact hread
    | punctuation mark =>
      cases mark with
      | openParen => exact hread
      | _ => exact ht.elim
    | keyword | endOfInput => exact ht.elim
    | _ => exact hread
  | @block t ts body hbody =>
    have hread : block.Reads (t :: ts) rest body := hblock hbody
    cases hbody
    rw [Cursor.token_of_lexemes hs, Cursor.loc_of_lexemes hs]
    exact .last hread .pure

theorem reads_statements {stmt : Parser Stmt} {body : List Stmt}
    (hstmt : ∀ {ts s rest}, Statement ts s → stmt.Reads ts rest s) (h : Many Statement ts body) :
    (statements stmt).Reads ts (⟨.punctuation .closeBrace, i⟩ :: rest) body := by
  have hgo : ∀ bound, body.length < bound →
      (statements.go stmt bound).Reads ts (⟨.punctuation .closeBrace, i⟩ :: rest) body := by
    induction h with
    | nil =>
      rintro (_ | bound) hb
      · cases hb
      refine .get fun s hs => ?_
      rw [Cursor.token_of_lexemes hs]
      exact .pure
    | @cons ts us a as ha has ih =>
      rintro (_ | bound) hb
      · cases hb
      obtain ⟨l, vs, rfl, hbrace, hend, -⟩ := ha.exists_starts
      refine .get fun s hs => ?_
      rw [Cursor.token_of_lexemes hs]
      split
      · next h => exact absurd h hbrace
      · next h => exact absurd h hend
      · exact .bind (hstmt ha) (.last (ih bound (Nat.lt_of_succ_lt_succ hb)) .pure)
  refine .get fun s hs => hgo _ ?_
  have := length_many Statement.ne_nil h
  rw [hs, List.length_append, List.length_cons]
  omega

theorem reads_block : ∀ (room : Nat) {ts : List Lexeme} {body : List Stmt} {rest : List Lexeme},
    Braced Statement ts body → (block room).Reads ts rest body
  | 0, _, _, _, .mk _ => .cons .expect fun _ _ _ => .fail (.inl rfl)
  | room + 1, _, _, _, .mk h =>
    .cons .expect (.level (reads_statements (reads_statement (reads_block room)) h)
      (.last .expect .pure))

/-! ### Declarations -/

theorem reads_param {x : Param} (h : Parameter ts x) : param.Reads ts rest x := by
  cases h
  refine .cons .expectType (.get fun s hs => ?_)
  rw [Cursor.loc_of_lexemes hs]
  exact .cons .expectName .pure

theorem reads_function {f : Function} (h : Definition ts f) : function.Reads ts rest f := by
  cases h with
  | mk hparams hbody =>
    refine .get fun s hs => ?_
    rw [Cursor.loc_of_lexemes hs]
    refine .cons .expect (.cons .expectType (.cons .expectName ?_))
    refine .bind (reads_parenthesized (fun h _ => reads_param h) ?_ hparams)
      (.last (reads_block maxNesting hbody) .pure)
    rintro _ _ ⟨⟩
    exact ⟨_, _, rfl, nofun⟩

theorem reads_decl {d : Decl} (h : Declaration ts d) : decl.Reads ts rest d := by
  refine .get fun s hs => ?_
  cases h with
  | @function f h =>
    have hread : function.Reads ts rest f := reads_function h
    cases h
    rw [Cursor.token_of_lexemes hs, if_pos rfl]
    exact .map hread
  | stmt h =>
    obtain ⟨l, us, rfl, -, -, hfunc⟩ := h.exists_starts
    rw [Cursor.token_of_lexemes hs, if_neg hfunc]
    exact .map (reads_statement (reads_block maxNesting) h)

theorem reads_program {p : Program} (h : Sentence ts p) :
    program.Reads ts [⟨.endOfInput, i⟩] p := by
  have hgo : ∀ bound, p.length < bound → (program.go bound).Reads ts [⟨.endOfInput, i⟩] p := by
    induction h with
    | nil =>
      rintro (_ | bound) hb
      · cases hb
      refine .get fun s hs => ?_
      rw [Cursor.token_of_lexemes hs, if_pos rfl]
      exact .pure
    | @cons ts us d ds hd hds ih =>
      rintro (_ | bound) hb
      · cases hb
      obtain ⟨l, vs, rfl, hend⟩ := hd.exists_starts
      refine .get fun s hs => ?_
      rw [Cursor.token_of_lexemes hs, if_neg hend]
      exact .bind (reads_decl hd) (.last (ih bound (Nat.lt_of_succ_lt_succ hb)) .pure)
  refine .get fun s hs => hgo _ ?_
  have := length_many Declaration.ne_nil h
  rw [hs, List.length_append, List.length_singleton]
  omega

end Parser

end Labyrinth
