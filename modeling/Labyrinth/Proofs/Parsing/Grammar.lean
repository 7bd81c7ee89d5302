import Labyrinth.Double.Numeral
import Labyrinth.Proofs.Program.Parts

/-!
# The grammar of programs

`Grammar.Sentence ts p` says that the tokens `ts` derive the program `p`, and so do the relations in
front of it for the parts of a program. A rule puts the node that it makes at the first token of its
span. Limits have no place here: blocks and expressions are as deep as one likes, and a whole number
stands for a literal of 64 bits also where it does not fit.
-/

namespace Labyrinth

theorem BinaryOp.level_lt (op : BinaryOp) : op.level < 6 := by
  cases op <;> decide

namespace Grammar

/-! ### Lists -/

section

variable {α : Type} (Item : List Lexeme → α → Prop)

inductive Many : List Lexeme → List α → Prop
  | nil : Many [] []
  | cons {ts us a as} : Item ts a → Many us as → Many (ts ++ us) (a :: as)

/-- Items, one at least, with a comma between each two. -/
inductive Separated : List Lexeme → List α → Prop
  | last {ts a} : Item ts a → Separated ts [a]
  | more {ts us a as i} : Item ts a → Separated us as →
      Separated (ts ++ ⟨.punctuation .comma, i⟩ :: us) (a :: as)

/-- Items in parentheses, none or with commas. -/
inductive Parenthesized : List Lexeme → List α → Prop
  | none {i j} : Parenthesized [⟨.punctuation .openParen, i⟩, ⟨.punctuation .closeParen, j⟩] []
  | some {ts as i j} : Separated Item ts as →
      Parenthesized (⟨.punctuation .openParen, i⟩ :: ts ++ [⟨.punctuation .closeParen, j⟩]) as

inductive Braced : List Lexeme → List α → Prop
  | mk {ts as i j} : Many Item ts as →
      Braced (⟨.punctuation .openBrace, i⟩ :: ts ++ [⟨.punctuation .closeBrace, j⟩]) as

variable {Item}

theorem Many.exists_of_mem {ts : List Lexeme} {as : List α} (h : Many Item ts as) {a : α}
    (ha : a ∈ as) : ∃ us, us <:+: ts ∧ Item us a := by
  induction h with
  | nil => cases ha
  | cons hitem _ ih =>
    rcases List.mem_cons.mp ha with rfl | ha
    · exact ⟨_, (List.prefix_append _ _).isInfix, hitem⟩
    · obtain ⟨us, hus, ha⟩ := ih ha
      exact ⟨us, hus.trans (List.suffix_append _ _).isInfix, ha⟩

theorem Separated.exists_of_mem {ts : List Lexeme} {as : List α} (h : Separated Item ts as) {a : α}
    (ha : a ∈ as) : ∃ us, us <:+: ts ∧ Item us a := by
  induction h with
  | last hitem =>
    obtain rfl := List.mem_singleton.mp ha
    exact ⟨_, List.infix_rfl, hitem⟩
  | more hitem _ ih =>
    rcases List.mem_cons.mp ha with rfl | ha
    · exact ⟨_, (List.prefix_append _ _).isInfix, hitem⟩
    · obtain ⟨us, hus, ha⟩ := ih ha
      refine ⟨us, hus.trans ?_, ha⟩
      exact ((List.suffix_cons _ _).trans (List.suffix_append _ _)).isInfix

theorem Separated.length_le (hitem : ∀ {ts a}, Item ts a → ts ≠ []) {ts : List Lexeme} {as : List α}
    (h : Separated Item ts as) : as.length ≤ ts.length := by
  induction h with
  | last ha => exact List.length_pos_iff.mpr (hitem ha)
  | more _ _ ih =>
    simp only [List.length_append, List.length_cons]
    omega

theorem Parenthesized.exists_of_mem {ts : List Lexeme} {as : List α} (h : Parenthesized Item ts as)
    {a : α} (ha : a ∈ as) : ∃ us, us <:+: ts ∧ Item us a := by
  cases h with
  | none => cases ha
  | some h =>
    obtain ⟨us, hus, ha⟩ := h.exists_of_mem ha
    refine ⟨us, hus.trans ?_, ha⟩
    exact (List.suffix_cons _ _).isInfix.trans (List.prefix_append _ _).isInfix

theorem Parenthesized.length_le (hitem : ∀ {ts a}, Item ts a → ts ≠ []) {ts : List Lexeme}
    {as : List α} (h : Parenthesized Item ts as) : as.length ≤ ts.length := by
  cases h with
  | none => exact Nat.zero_le _
  | some h =>
    have hle := h.length_le hitem
    simp only [List.length_append, List.length_cons]
    omega

theorem Parenthesized.exists_cons {ts : List Lexeme} {as : List α} (h : Parenthesized Item ts as) :
    ∃ i us, ts = ⟨.punctuation .openParen, i⟩ :: us := by
  cases h <;> exact ⟨_, _, rfl⟩

theorem Braced.exists_cons {ts : List Lexeme} {as : List α} (h : Braced Item ts as) :
    ∃ t us, ts = t :: us := by
  cases h
  exact ⟨_, _, rfl⟩

end

/-! ### Expressions -/

/-- The expressions of a level: at the levels of the operators those that stand on the left of an
operator of this level, at level 6 the operands of operators, and at level 7 those without any. -/
inductive Expression : Nat → List Lexeme → Expr → Prop
  | binary {n op t ts us left right i} : op.level = n → Expression n (t :: ts) left →
      Expression (n + 1) us right →
      Expression n (t :: ts ++ ⟨.operator op.token, i⟩ :: us) (.binary t.loc op left right)
  | tighter {n ts e} : Expression (n + 1) ts e → Expression n ts e
  | unary {op : UnaryOp} {ts operand i} : Expression 6 ts operand →
      Expression 6 (⟨.operator op.token, i⟩ :: ts) (.unary i op operand)
  | int {raw i} : raw.toList ≠ [] → (∀ c ∈ raw.toList, c.isDigit) →
      Expression 7 [⟨.number raw, i⟩] (.int i (.ofNat (Text.digitsValue raw.toList)))
  | float {raw value i} : '.' ∈ raw.toList → Double.ofChars? raw.toList = some value →
      Expression 7 [⟨.number raw, i⟩] (.float i raw value)
  | bool {value i} : Expression 7 [⟨.boolean value, i⟩] (.bool i value)
  | var {name i} : Expression 7 [⟨.identifier name, i⟩] (.var i name)
  | call {name ts args i} : Parenthesized (Expression 0) ts args →
      Expression 7 (⟨.identifier name, i⟩ :: ts) (.call i name args)
  | paren {ts e i j} : Expression 0 ts e →
      Expression 7 (⟨.punctuation .openParen, i⟩ :: ts ++ [⟨.punctuation .closeParen, j⟩])
        (e.relocate i)

theorem loc_relocate (i : Location) (e : Expr) : (e.relocate i).loc = i := by
  cases e <;> rfl

/-- An expression is put at its first token. -/
theorem Expression.exists_first : ∀ {n : Nat} {ts : List Lexeme} {e : Expr}, Expression n ts e →
    ∃ t us, ts = t :: us ∧ e.loc = t.loc
  | _, _, _, .tighter h => h.exists_first
  | _, _, _, .binary .. | _, _, _, .unary _ | _, _, _, .int .. | _, _, _, .float .. | _, _, _, .bool
  | _, _, _, .var | _, _, _, .call _ => ⟨_, _, rfl, rfl⟩
  | _, _, _, .paren _ => ⟨_, _, rfl, loc_relocate _ _⟩

/-- The tokens that an expression may start with. -/
def Starts : Token → Prop
  | .number _ | .boolean _ | .identifier _ | .punctuation .openParen | .operator .minus
  | .operator .not => True
  | _ => False

theorem Expression.exists_starts : ∀ {n : Nat} {ts : List Lexeme} {e : Expr}, Expression n ts e →
    ∃ t us, ts = t :: us ∧ Starts t.token
  | _, _, _, .tighter h => h.exists_starts
  | _, _, _, .binary _ h _ => by
    obtain ⟨t, us, he, ht⟩ := h.exists_starts
    cases he
    exact ⟨_, _, rfl, ht⟩
  | _, _, _, @Expression.unary op _ _ _ _ => ⟨_, _, rfl, by cases op <;> trivial⟩
  | _, _, _, .int .. | _, _, _, .float .. | _, _, _, .bool | _, _, _, .var | _, _, _, .call _
  | _, _, _, .paren _ => ⟨_, _, rfl, trivial⟩

/-- An expression is no assignment. -/
theorem Expression.second_ne : ∀ {n : Nat} {ts : List Lexeme} {e : Expr}, Expression n ts e →
    ∀ {name i us}, ts = ⟨.identifier name, i⟩ :: us → ∀ t ∈ us.head?, t.token ≠ .operator .assign
  | _, _, _, .tighter h, _, _, _, he => h.second_ne he
  | _, _, _, @Expression.binary _ op _ ts _ _ _ _ _ h _, _, _, _, he => by
    obtain ⟨ht, rfl⟩ := List.cons.inj he
    have ih := h.second_ne (congrArg (· :: ts) ht)
    cases ts with
    | nil => cases op <;> simp [BinaryOp.token]
    | cons x xs => exact ih
  | _, _, _, .int .., _, _, _, he | _, _, _, .float .., _, _, _, he => nomatch he
  | _, _, _, .var, _, _, _, he => by
    cases he
    nofun
  | _, _, _, .call h, _, _, _, he => by
    cases h <;> cases he <;> simp

theorem Expression.level_le : ∀ {n : Nat} {ts : List Lexeme} {e : Expr}, Expression n ts e → n ≤ 7
  | _, _, _, .tighter h => Nat.le_of_succ_le h.level_le
  | _, _, _, @Expression.binary _ op _ _ _ _ _ _ hlevel _ _ => by
    have := op.level_lt
    omega
  | _, _, _, .unary _ => by decide
  | _, _, _, .int .. | _, _, _, .float .. | _, _, _, .bool | _, _, _, .var | _, _, _, .call _
  | _, _, _, .paren _ => Nat.le_refl _

/-! ### Statements -/

inductive Statement : List Lexeme → Stmt → Prop
  | declare {ty name ts init i j k l} : ty ≠ .void → Expression 0 ts init →
      Statement (⟨.keyword (.type ty), i⟩ :: ⟨.identifier name, j⟩ :: ⟨.operator .assign, k⟩ ::
        ts ++ [⟨.punctuation .semicolon, l⟩]) (.declare i ty name init)
  | assign {name ts value i j k} : Expression 0 ts value →
      Statement (⟨.identifier name, i⟩ :: ⟨.operator .assign, j⟩ :: ts ++
        [⟨.punctuation .semicolon, k⟩]) (.assign i name value)
  | cond {ts us test body i j k} : Expression 0 ts test → Braced Statement us body →
      Statement (⟨.keyword .cond, i⟩ :: ⟨.punctuation .openParen, j⟩ :: ts ++
        ⟨.punctuation .closeParen, k⟩ :: us) (.cond i test body)
  | loop {ts us test body i j k} : Expression 0 ts test → Braced Statement us body →
      Statement (⟨.keyword .loop, i⟩ :: ⟨.punctuation .openParen, j⟩ :: ts ++
        ⟨.punctuation .closeParen, k⟩ :: us) (.loop i test body)
  | leave {i j} : Statement [⟨.keyword .ret, i⟩, ⟨.punctuation .semicolon, j⟩] (.ret i none)
  | ret {ts value i j} : Expression 0 ts value →
      Statement (⟨.keyword .ret, i⟩ :: ts ++ [⟨.punctuation .semicolon, j⟩]) (.ret i (some value))
  | eval {ts value i} : Expression 0 ts value →
      Statement (ts ++ [⟨.punctuation .semicolon, i⟩]) (.eval value)
  | block {t ts body} : Braced Statement (t :: ts) body → Statement (t :: ts) (.block t.loc body)

/-- A statement starts neither like the end of a block nor like a function. -/
theorem Statement.exists_starts {ts : List Lexeme} {s : Stmt} (h : Statement ts s) :
    ∃ t us, ts = t :: us ∧ t.token ≠ .punctuation .closeBrace ∧ t.token ≠ .endOfInput ∧
      t.token ≠ .keyword .func := by
  cases h with
  | eval h =>
    obtain ⟨t, us, rfl, ht⟩ := h.exists_starts
    refine ⟨t, _, rfl, ?_, ?_, ?_⟩ <;> intro he <;> simp [he, Starts] at ht
  | block h =>
    cases h
    exact ⟨_, _, rfl, nofun, nofun, nofun⟩
  | _ => exact ⟨_, _, rfl, nofun, nofun, nofun⟩

/-- The name is one of the tokens. -/
def Names (ts : List Lexeme) (name : String) : Prop := ∃ i, ⟨.identifier name, i⟩ ∈ ts

theorem Names.mono {ts us : List Lexeme} {name : String} (h : Names us name) (hsub : us ⊆ ts) :
    Names ts name := by
  obtain ⟨i, hi⟩ := h
  exact ⟨i, hsub hi⟩

/-- A variable is not void, and its name is one of the tokens. -/
def Declares (ts : List Lexeme) (x : String × Ty) : Prop := x.2 ≠ .void ∧ Names ts x.1

theorem Declares.mono {ts us : List Lexeme} (hsub : us ⊆ ts) {xs : List (String × Ty)}
    (h : ∀ x ∈ xs, Declares us x) : ∀ x ∈ xs, Declares ts x := by
  intro x hx
  obtain ⟨hvoid, hname⟩ := h x hx
  exact ⟨hvoid, hname.mono hsub⟩

mutual

theorem Statement.declares : ∀ {ts : List Lexeme} {s : Stmt}, Statement ts s →
    ∀ x ∈ s.declared, Declares ts x
  | _, _, .declare (j := j) hty _ => List.forall_mem_singleton.mpr ⟨hty, j, by simp⟩
  | _, _, .assign _ | _, _, .leave | _, _, .ret _ | _, _, .eval _ => nofun
  | _, _, .cond _ h | _, _, .loop _ h => Declares.mono (fun _ hl => by simp [hl]) h.declares
  | _, _, .block h => h.declares

theorem Braced.declares : ∀ {ts : List Lexeme} {ss : List Stmt}, Braced Statement ts ss →
    ∀ x ∈ Stmt.declaredAll ss, Declares ts x
  | _, _, .mk h => Declares.mono (fun _ hl => by simp [hl]) h.declares

theorem Many.declares : ∀ {ts : List Lexeme} {ss : List Stmt}, Many Statement ts ss →
    ∀ x ∈ Stmt.declaredAll ss, Declares ts x
  | _, _, .nil => nofun
  | _, _, .cons h hs => List.forall_mem_append.mpr
    ⟨Declares.mono (fun _ hl => by simp [hl]) h.declares,
      Declares.mono (fun _ hl => by simp [hl]) hs.declares⟩

end

theorem Statement.ne_nil {ts : List Lexeme} {s : Stmt} (h : Statement ts s) : ts ≠ [] := by
  obtain ⟨t, us, rfl, -⟩ := h.exists_starts
  exact List.cons_ne_nil t us

/-! ### Programs -/

inductive Parameter : List Lexeme → Param → Prop
  | mk {ty name i j} :
      Parameter [⟨.keyword (.type ty), i⟩, ⟨.identifier name, j⟩] { loc := j, ty, name }

inductive Definition : List Lexeme → Function → Prop
  | mk {ret name ts us params body i j k} : Parenthesized Parameter ts params →
      Braced Statement us body →
      Definition (⟨.keyword .func, i⟩ :: ⟨.keyword (.type ret), j⟩ :: ⟨.identifier name, k⟩ ::
        ts ++ us) { loc := i, ret, name, params, body }

inductive Declaration : List Lexeme → Decl → Prop
  | function {ts f} : Definition ts f → Declaration ts (.function f)
  | stmt {ts s} : Statement ts s → Declaration ts (.stmt s)

theorem Parameter.ne_nil {ts : List Lexeme} {x : Param} (h : Parameter ts x) : ts ≠ [] := by
  cases h
  exact List.cons_ne_nil _ _

/-- The names of a function and of its parameters are among the tokens, and there are no fewer tokens than
parameters. -/
theorem Definition.names {ts : List Lexeme} {f : Function} (h : Definition ts f) :
    Names ts f.name ∧ (∀ x ∈ f.params, Names ts x.name) ∧ f.params.length ≤ ts.length := by
  cases h with
  | @mk ret name ps us params body i j k hparams hbody =>
    refine ⟨⟨k, by simp⟩, fun x hx => ?_, ?_⟩
    · obtain ⟨vs, hvs, hx⟩ := hparams.exists_of_mem hx
      cases hx with
      | @mk ty name _ l =>
        have hname : Names ps name := ⟨l, hvs.subset (by simp)⟩
        exact hname.mono fun _ hl => by simp [hl]
    · have hle := hparams.length_le Parameter.ne_nil
      simp only [List.length_append, List.length_cons]
      omega

/-- The names of the variables that are declared are among the tokens. -/
theorem Declaration.names {ts : List Lexeme} {d : Decl} (h : Declaration ts d) :
    ∀ x ∈ d.declared, Names ts x.1 := by
  intro x hx
  cases h with
  | stmt h => exact (h.declares x hx).2
  | function h =>
    rcases List.mem_append.mp hx with hx | hx
    · obtain ⟨y, hy, rfl⟩ := List.mem_map.mp hx
      exact h.names.2.1 y hy
    · cases h with
      | mk _ hbody => exact (hbody.declares x hx).2.mono fun _ hl => by simp [hl]

theorem Declaration.exists_starts {ts : List Lexeme} {d : Decl} (h : Declaration ts d) :
    ∃ t us, ts = t :: us ∧ t.token ≠ .endOfInput := by
  cases h with
  | function h =>
    cases h
    exact ⟨_, _, rfl, nofun⟩
  | stmt h =>
    obtain ⟨t, us, he, -, ht, -⟩ := h.exists_starts
    exact ⟨t, us, he, ht⟩

theorem Declaration.ne_nil {ts : List Lexeme} {d : Decl} (h : Declaration ts d) : ts ≠ [] := by
  obtain ⟨t, us, rfl, -⟩ := h.exists_starts
  exact List.cons_ne_nil t us

/-- The tokens in front of the end of input derive the program. -/
def Sentence : List Lexeme → Program → Prop := Many Declaration

end Grammar

end Labyrinth
