import Labyrinth.Proofs.Parsing.Progress

/-!
# The recursion of the readers

The readers call each other and themselves, and have bounds for that: the loops over lists the number of tokens
that are left, the others the counters. `Parser.body` says what each of them does with its calls as a parameter
and without bounds. No bound is ever met, so that is what the readers do (`Parser.run_eq_body`): where a call is
made there are fewer tokens left, or a level or an operator more is counted, or the reader that is called comes
later in the order of `Task.rank` (`Parser.body_congr`).
-/

namespace Labyrinth

namespace Parser

variable {α β : Type} {p q : Token → Prop} {s t : Cursor}

/-! ### What readers do with their calls -/

/-- An item, and if there is a comma behind it, the items behind that. -/
def commaStep (item : Parser α) (again : Parser (List α)) : Parser (List α) := do
  let a ← item
  if (← get).token = .punctuation .comma then
    advance
    return a :: (← again)
  else return [a]

/-- Items in parentheses, which are read by `items` if there are any. -/
def enclosed (items : Parser (List α)) : Parser (List α) := do
  expectMark .openParen
  let items ←
    if (← get).token = .punctuation .closeParen then pure [] else items
  expectMark .closeParen
  return items

def chainStep (n : Nat) (operand : Parser Expr) (again : Expr → Parser Expr) (left : Expr) : Parser Expr := do
  let s ← get
  match BinaryOp.ofToken? n s.token with
  | none => return left
  | some op =>
    if maxHeight ≤ s.height then fail .tooDeep
    set { s with height := s.height + 1 }
    advance
    let right ← operand
    again (.binary left.loc op left right)

def chainOf (operand : Parser Expr) (rest : Expr → Parser Expr) : Parser Expr := do
  let first ← operand
  let s ← get
  let whole ← rest first
  modify fun t => { t with height := s.height }
  return whole

def primaryOf (args : Parser (List Expr)) (inner : Parser Expr) : Parser Expr := do
  let s ← get
  match s.token with
  | .number raw => advance; literal raw s.loc
  | .boolean value => advance; return .bool s.loc value
  | .identifier name =>
    advance
    if (← get).token = .punctuation .openParen then
      return .call s.loc name (← enclosed args)
    else return .var s.loc name
  | .punctuation .openParen =>
    advance
    let e ← inner
    expectMark .closeParen
    return e.relocate s.loc
  | _ => unexpected .expression

def prefixedOf (operand primary : Parser Expr) : Parser Expr := do
  let s ← get
  match UnaryOp.ofToken? s.token with
  | some op => advance; return .unary s.loc op (← operand)
  | none => primary

def declarationOf (expr : Parser Expr) : Parser Stmt := do
  let loc := (← get).loc
  let ty ← expectType
  let name ← expectName .variableName
  expect (.operator .assign)
  let init ← expr
  expectMark .semicolon
  return .declare loc ty name init

def conditionOf (expr : Parser Expr) : Parser Expr := do
  expectMark .openParen
  let test ← expr
  expectMark .closeParen
  return test

def statementOf (declaration : Parser Stmt) (condition expr : Parser Expr) (block : Parser (List Stmt)) :
    Parser Stmt := do
  let s ← get
  match s.token with
  | .keyword (.type .int) | .keyword (.type .float) | .keyword (.type .bool) => declaration
  | .keyword .cond =>
    advance
    let test ← condition
    return .cond s.loc test (← block)
  | .keyword .loop =>
    advance
    let test ← condition
    return .loop s.loc test (← block)
  | .keyword .ret =>
    advance
    let value ←
      if (← get).token = .punctuation .semicolon then pure none else some <$> expr
    expectMark .semicolon
    return .ret s.loc value
  | .punctuation .openBrace => return .block s.loc (← block)
  | .identifier name =>
    if s.nextToken = .operator .assign then
      advance
      advance
      let value ← expr
      expectMark .semicolon
      return .assign s.loc name value
    else
      let value ← expr
      expectMark .semicolon
      return .eval value
  | _ =>
    let value ← expr
    expectMark .semicolon
    return .eval value

def statementsStep (stmt : Parser Stmt) (again : Parser (List Stmt)) : Parser (List Stmt) := do
  match (← get).token with
  | .punctuation .closeBrace => return []
  | .endOfInput => unexpected (.token (.punctuation .closeBrace))
  | _ =>
    let s ← stmt
    return s :: (← again)

def blockOf (body : Parser (List Stmt)) : Parser (List Stmt) := do
  expectMark .openBrace
  enter
  let body ← body
  modify leave
  expectMark .closeBrace
  return body

def functionOf (params : Parser (List Param)) (block : Parser (List Stmt)) : Parser Function := do
  let loc := (← get).loc
  expect (.keyword .func)
  let ret ← expectType
  let name ← expectName .functionName
  let params ← enclosed params
  let body ← block
  return ⟨loc, ret, name, params, body⟩

def declOf (function : Parser Function) (stmt : Parser Stmt) : Parser Decl := do
  if (← get).token = .keyword .func then .function <$> function
  else .stmt <$> stmt

def programStep (decl : Parser Decl) (again : Parser Program) : Parser Program := do
  if (← get).token = .endOfInput then return []
  else
    let d ← decl
    return d :: (← again)

/-- The readers that call each other. -/
inductive Task where
  | program
  | decl
  | function
  | params
  | block
  | statements
  | statement
  | declaration
  | condition
  | level (n : Nat)
  /-- The operators of a level behind what is read already. -/
  | chain (n : Nat) (left : Expr)
  | operand
  | primary
  | args

/-- What a reader reads. -/
abbrev Task.Value : Task → Type
  | program => Program
  | decl => Decl
  | function => Function
  | params => List Param
  | block | statements => List Stmt
  | statement | declaration => Stmt
  | condition | level _ | chain _ _ | operand | primary => Expr
  | args => List Expr

/-- What a reader does, with `call` for the calls that it makes. A loop calls itself for what is behind an
iteration. -/
def body (call : ∀ k : Task, Parser k.Value) : ∀ k : Task, Parser k.Value
  | .program => programStep (call .decl) (call .program)
  | .decl => declOf (call .function) (call .statement)
  | .function => functionOf (call .params) (call .block)
  | .params => commaStep param (call .params)
  | .block => blockOf (call .statements)
  | .statements => statementsStep (call .statement) (call .statements)
  | .statement => statementOf (call .declaration) (call .condition) (call (.level 0)) (call .block)
  | .declaration => declarationOf (call (.level 0))
  | .condition => conditionOf (call (.level 0))
  | .level n =>
    if n < 6 then chainOf (call (.level (n + 1))) fun left => call (.chain n left) else call .operand
  | .chain n left => chainStep n (call (.level (n + 1))) (fun e => call (.chain n e)) left
  | .operand => nested (prefixedOf (call .operand) (call .primary))
  | .primary => primaryOf (call .args) (call (.level 0))
  | .args => commaStep (call (.level 0)) (call .args)

/-- Items with a comma between each two, one at least also where no token is left. -/
def commas (item : Parser α) : Parser (List α) := commaStep item (sepByComma item)

/-- The readers, with room for all levels and operators that may be counted. -/
def run : ∀ k : Task, Parser k.Value
  | .program => program
  | .decl => decl
  | .function => function
  | .params => commas param
  | .block => block maxNesting
  | .statements => statements (statement maxNesting (block maxNesting))
  | .statement => statement maxNesting (block maxNesting)
  | .declaration => declaration maxNesting
  | .condition => condition maxNesting
  | .level n => levelled (operand maxNesting) n
  | .chain n left => chainFrom n (levelled (operand maxNesting) (n + 1)) (maxHeight + 1) left
  | .operand => operand maxNesting
  | .primary => primary (expression maxNesting)
  | .args => commas (expression maxNesting)

/-! ### Readers that do the same -/

/-- Two readers do the same at a cursor. -/
def Same (s : Cursor) (r r' : Parser α) : Prop := r' s = r s

/-- A level that was opened was below both limits. -/
theorem enter_eq_ok {u : Unit} (h : enter s = .ok u t) : s.depth < maxNesting ∧ s.height < maxHeight ∧
    t = { s with depth := s.depth + 1, height := s.height + 1 } := by
  have hopen : enter.Meets s (fun _ t => s.depth < maxNesting ∧ s.height < maxHeight ∧
      t = { s with depth := s.depth + 1, height := s.height + 1 }) fun _ => True :=
    .enter (fun hd hh => ⟨hd, hh, rfl⟩) fun _ => trivial
  exact hopen.ok h

namespace Same

theorem refl (r : Parser α) : Same s r r := rfl

theorem symm {r r' : Parser α} (h : Same s r r') : Same s r' r := Eq.symm h

theorem trans {r r' r'' : Parser α} (h : Same s r r') (h' : Same s r' r'') : Same s r r'' := Eq.trans h' h

theorem bind {r r' : Parser α} {f f' : α → Parser β} (hr : Same s r r')
    (hf : ∀ a t, r s = .ok a t → Same t (f a) (f' a)) : Same s (r >>= f) (r' >>= f') := by
  show EStateM.bind r' f' s = EStateM.bind r f s
  unfold EStateM.bind
  rw [hr]
  cases hs : r s with
  | error e t => rfl
  | ok a t => exact hf a t hs

theorem after {r : Parser α} {f f' : α → Parser β} (hf : ∀ a t, r s = .ok a t → Same t (f a) (f' a)) :
    Same s (r >>= f) (r >>= f') := bind rfl hf

/-- Nothing more is called. -/
theorem last {r r' : Parser α} {f : α → Parser β} (hr : Same s r r') : Same s (r >>= f) (r' >>= f) :=
  bind hr fun _ _ _ => rfl

theorem map {r r' : Parser α} {f : α → β} (hr : Same s r r') : Same s (f <$> r) (f <$> r') :=
  last (f := fun a => Pure.pure (f a)) hr

theorem get {f f' : Cursor → Parser β} (hf : Same s (f s) (f' s)) : Same s (get >>= f) (get >>= f') := hf

theorem advance {f f' : Unit → Parser β} (hf : Same s.advance (f ()) (f' ())) :
    Same s (advance >>= f) (advance >>= f') := hf

theorem set {f f' : PUnit → Parser β} (hf : Same t (f ⟨⟩) (f' ⟨⟩)) :
    Same s (set t >>= f) (set t >>= f') := hf

theorem nested {r r' : Parser α} (h : s.depth < maxNesting → s.height < maxHeight →
    Same { s with depth := s.depth + 1, height := s.height + 1 } r r') :
    Same s (nested r) (nested r') := by
  refine after fun _ t ht => ?_
  obtain ⟨hd, hh, rfl⟩ := enter_eq_ok ht
  have h : r' { s with depth := s.depth + 1, height := s.height + 1 } = r _ := h hd hh
  simp only [Same, h]

end Same

/-- The readers do the same wherever one may come to from `s` that leaves the counters as they are. -/
def Agrees (s : Cursor) (r r' : Parser α) : Prop :=
  ∀ t, s.Past (fun _ => True) t → Same t r r'

namespace Agrees

theorem refl (r : Parser α) : Agrees s r r := fun _ _ => rfl

theorem same {r r' : Parser α} (h : Agrees s r r') : Same s r r' := h s .refl

theorem bind {r r' : Parser α} {f f' : α → Parser β} (hr : Agrees s r r') (hp : r.Passes p)
    (hf : ∀ a, Agrees s (f a) (f' a)) : Agrees s (r >>= f) (r' >>= f') := by
  refine fun t ht => .bind (hr t ht) fun a u hu => hf a u ?_
  exact (ht.trans ((hp t).ok hu)).mono fun _ _ => trivial

theorem after {r : Parser α} {f f' : α → Parser β} (hp : r.Passes p)
    (hf : ∀ a, Agrees s (f a) (f' a)) : Agrees s (r >>= f) (r >>= f') :=
  bind (refl r) hp hf

theorem last {r r' : Parser α} {f : α → Parser β} (hr : Agrees s r r') : Agrees s (r >>= f) (r' >>= f) :=
  fun t ht => .last (hr t ht)

theorem map {r r' : Parser α} {f : α → β} (hr : Agrees s r r') : Agrees s (f <$> r) (f <$> r') :=
  fun t ht => .map (hr t ht)

theorem get {f f' : Cursor → Parser β} (hf : ∀ t, Agrees s (f t) (f' t)) :
    Agrees s (get >>= f) (get >>= f') :=
  fun t ht => hf t t ht

end Agrees

theorem Passes.advance : advance.Passes fun _ => True := fun _ => .advance (.pure (.advance trivial))

theorem agrees_enclosed {items items' : Parser (List α)} (h : Agrees s items items') :
    Agrees s (enclosed items) (enclosed items') := by
  refine .after (.expectMark _) fun _ => .get fun t => ?_
  split
  · exact .refl _
  · exact .last h

theorem agrees_primaryOf {args args' : Parser (List Expr)} {inner inner' : Parser Expr}
    (hargs : Agrees s args args') (hinner : Agrees s inner inner') :
    Agrees s (primaryOf args inner) (primaryOf args' inner') := by
  refine .get fun t => ?_
  split
  · exact .refl _
  · exact .refl _
  · refine .after .advance fun _ => .get fun u => ?_
    split
    · exact .last (agrees_enclosed hargs)
    · exact .refl _
  · exact .after .advance fun _ => .last hinner
  · exact .refl _

theorem agrees_prefixedOf {operand operand' primary primary' : Parser Expr}
    (hop : Agrees s operand operand') (hprimary : Agrees s primary primary') :
    Agrees s (prefixedOf operand primary) (prefixedOf operand' primary') := by
  refine .get fun t => ?_
  split
  · exact .after .advance fun _ => .last hop
  · exact hprimary

theorem agrees_declarationOf {expr expr' : Parser Expr} (h : Agrees s expr expr') :
    Agrees s (declarationOf expr) (declarationOf expr') :=
  .get fun _ => .after .expectType fun _ => .after (.expectName _) fun _ => .after (.expect _) fun _ => .last h

theorem agrees_conditionOf {expr expr' : Parser Expr} (h : Agrees s expr expr') :
    Agrees s (conditionOf expr) (conditionOf expr') :=
  .after (.expectMark _) fun _ => .last h

theorem agrees_statementOf {declaration declaration' : Parser Stmt}
    {condition condition' expr expr' : Parser Expr} {block block' : Parser (List Stmt)}
    (hdeclaration : Agrees s declaration declaration') (hcondition : Agrees s condition condition')
    (hpasses : condition.Passes p) (hexpr : Agrees s expr expr') (hblock : Agrees s block block') :
    Agrees s (statementOf declaration condition expr block)
      (statementOf declaration' condition' expr' block') := by
  refine .get fun t => ?_
  split
  · exact hdeclaration
  · exact hdeclaration
  · exact hdeclaration
  · exact .after .advance fun _ => .bind hcondition hpasses fun _ => .last hblock
  · exact .after .advance fun _ => .bind hcondition hpasses fun _ => .last hblock
  · refine .after .advance fun _ => .get fun u => ?_
    split
    · exact .refl _
    · exact .last (.map hexpr)
  · exact .last hblock
  · split
    · exact .after .advance fun _ => .after .advance fun _ => .last hexpr
    · exact .last hexpr
  · exact .last hexpr

theorem agrees_functionOf {params params' : Parser (List Param)} {block block' : Parser (List Stmt)}
    (hparams : Agrees s params params') (hpasses : (enclosed params).Passes p)
    (hblock : Agrees s block block') : Agrees s (functionOf params block) (functionOf params' block') :=
  .get fun _ => .after (.expect _) fun _ => .after .expectType fun _ => .after (.expectName _) fun _ =>
    .bind (agrees_enclosed hparams) hpasses fun _ => .last hblock

theorem agrees_declOf {function function' : Parser Function} {stmt stmt' : Parser Stmt}
    (hfunction : Agrees s function function') (hstmt : Agrees s stmt stmt') :
    Agrees s (declOf function stmt) (declOf function' stmt') := by
  refine .get fun t => ?_
  split
  · exact .map hfunction
  · exact .map hstmt

/-! ### Loops over lists -/

section

variable {N : Cursor → Prop} {go : Nat → Parser α} {f : Parser α → Parser α}
  (hgo : ∀ bound, go (bound + 1) = f (go bound))
  (hzero : ∀ s, N s → s.lexemes = [] → ∀ again, Same s (go 0) (f again))
  (hstep : ∀ s again again', (∀ t, N t → t.lexemes.length < s.lexemes.length → Same t again again') →
    Same s (f again) (f again'))

include hgo hzero hstep

/-- The bound of a loop that goes on with fewer tokens is not met. -/
theorem loop_bound (bound bound' : Nat) {s : Cursor} (hs : N s) (hb : s.lexemes.length ≤ bound)
    (hb' : s.lexemes.length ≤ bound') : Same s (go bound) (go bound') := by
  have hnil (s : Cursor) (h : s.lexemes.length ≤ 0) : s.lexemes = [] :=
    List.length_eq_zero_iff.mp (Nat.le_zero.mp h)
  induction bound generalizing bound' s with
  | zero =>
    cases bound' with
    | zero => exact .refl _
    | succ bound' => rw [hgo]; exact hzero s hs (hnil s hb) _
  | succ bound ih =>
    cases bound' with
    | zero => rw [hgo]; exact (hzero s hs (hnil s hb') _).symm
    | succ bound' =>
      rw [hgo, hgo]
      exact hstep s _ _ fun t ht hlt => ih bound' ht (by omega) (by omega)

/-- So the loop is an iteration with the loop behind it. -/
theorem loop_eq {s : Cursor} (hs : N s) :
    Same s (fun t => go t.lexemes.length t) (f fun t => go t.lexemes.length t) := by
  have hnext : Same s (go s.lexemes.length) (go (s.lexemes.length + 1)) :=
    loop_bound hgo hzero hstep _ _ hs (Nat.le_refl _) (Nat.le_succ _)
  rw [hgo] at hnext
  exact hnext.trans (hstep s _ _ fun t ht hlt =>
    loop_bound hgo hzero hstep _ _ ht (Nat.le_of_lt hlt) (Nat.le_refl _))

end

section

variable {item item' : Parser α} {again again' : Parser (List α)}

/-- A loop over items goes on behind a comma, which is no item. -/
theorem same_commaStep (hitem : item.Passes p) (hp : ¬p (.punctuation .comma)) (heq : Same s item item')
    (h : ∀ t, s.Past (fun _ => True) t → t.lexemes ≠ [] → t.lexemes.length < s.lexemes.length →
      Same t again again') : Same s (commaStep item again) (commaStep item' again') := by
  refine .bind heq fun a t ht => .get ?_
  have hpast := (hitem s).ok ht
  split
  · next hcomma =>
    have hadvance : t.Past (fun _ => True) t.advance := .advance trivial
    have hlt := hpast.length_lt (hcomma ▸ hp)
    have hle := hadvance.length_le
    refine .advance (.last (h _ ((hpast.trans hadvance).mono fun _ _ => trivial) ?_ (by omega)))
    exact Cursor.advance_ne_nil (hcomma ▸ nofun)
  · exact .refl _

variable (hitem : item.Passes p) (hp : ¬p (.punctuation .comma))

include hitem hp

theorem sepByComma_eq (hs : s.lexemes ≠ []) : Same s (sepByComma item) (commas item) :=
  loop_eq (N := fun s => s.lexemes ≠ []) (f := commaStep item) (fun _ => rfl)
    (fun _ hne hnil => absurd hnil hne)
    (fun _ _ _ h => same_commaStep hitem hp rfl fun t _ hne hlt => h t hne hlt) hs

theorem commas_eq (s : Cursor) : Same s (commas item) (commaStep item (commas item)) :=
  same_commaStep hitem hp rfl fun _ _ hne _ => sepByComma_eq hitem hp hne

/-- Behind a parenthesis there is a token. -/
theorem enclosed_commas : enclosed (commas item) = parenthesized item := by
  funext s
  refine Same.after fun _ t ht => .get ?_
  split
  · exact .refl _
  · have hopen : (expectMark .openParen).Meets s (fun _ t => t.lexemes ≠ []) fun _ => True :=
      .expect (fun ht => Cursor.advance_ne_nil (ht ▸ nofun)) fun _ => trivial
    exact .last (sepByComma_eq hitem hp (hopen.ok ht))

end

/-- Behind an item that takes a token there are fewer left. -/
theorem same_cons {item item' : Parser α} {again again' : Parser (List α)}
    (hitem : item.Passes fun _ => False) (heq : Same s item item')
    (h : ∀ t, s.Past (fun _ => True) t → t.lexemes.length < s.lexemes.length → Same t again again') :
    Same s (do let a ← item; return a :: (← again)) (do let a ← item'; return a :: (← again')) := by
  refine .bind heq fun a t ht => .last ?_
  have hpast := (hitem s).ok ht
  exact h t (hpast.mono fun _ _ => trivial) (hpast.length_lt id)

theorem same_statementsStep {stmt stmt' : Parser Stmt} {again again' : Parser (List Stmt)}
    (hstmt : stmt.Passes fun _ => False) (heq : Same s stmt stmt')
    (h : ∀ t, s.Past (fun _ => True) t → t.lexemes.length < s.lexemes.length → Same t again again') :
    Same s (statementsStep stmt again) (statementsStep stmt' again') := by
  refine .get ?_
  split
  · exact .refl _
  · exact .refl _
  · exact same_cons hstmt heq h

theorem statements_eq {stmt : Parser Stmt} (hstmt : stmt.Passes fun _ => False) (s : Cursor) :
    Same s (statements stmt) (statementsStep stmt (statements stmt)) := by
  refine loop_eq (N := fun _ => True) (f := statementsStep stmt) (fun _ => rfl) (fun t _ hnil again => ?_)
    (fun _ _ _ h => same_statementsStep hstmt rfl fun t _ hlt => h t trivial hlt) trivial
  show (match t.token with
    | .punctuation .closeBrace => _
    | .endOfInput => _
    | _ => _ : Parser (List Stmt)) t = _
  rw [Cursor.token_of_nil hnil]
  rfl

theorem same_programStep {decl decl' : Parser Decl} {again again' : Parser Program}
    (hdecl : decl.Passes fun _ => False) (heq : Same s decl decl')
    (h : ∀ t, s.Past (fun _ => True) t → t.lexemes.length < s.lexemes.length → Same t again again') :
    Same s (programStep decl again) (programStep decl' again') := by
  refine .get ?_
  split
  · exact .refl _
  · exact same_cons hdecl heq h

theorem program_eq (s : Cursor) : Same s program (programStep decl program) := by
  refine loop_eq (N := fun _ => True) (f := programStep decl) (fun _ => rfl) (fun t _ hnil again => ?_)
    (fun _ _ _ h => same_programStep passes_decl rfl fun t _ hlt => h t trivial hlt) trivial
  show (if t.token = .endOfInput then pure [] else _ : Parser Program) t = _
  rw [if_pos (Cursor.token_of_nil hnil)]
  rfl

/-! ### Chains of operators -/

section

variable {n d : Nat} {operand operand' : Parser Expr} {again again' : Expr → Parser Expr}

theorem same_chainStep (hop : operand.Passes p) {left : Expr}
    (heq : s.height < maxHeight → Same { s with height := s.height + 1 }.advance operand operand')
    (h : ∀ e t, s.height < maxHeight → Cursor.Past (fun _ => True) { s with height := s.height + 1 } t →
      Same t (again e) (again' e)) :
    Same s (chainStep n operand again left) (chainStep n operand' again' left) := by
  refine .get ?_
  split
  · exact .refl _
  · split
    · exact .after fun _ _ h => nomatch h
    · next hlow =>
      have hlow := Nat.lt_of_not_le hlow
      refine .set (.advance (.bind (heq hlow) fun right t ht => h _ t hlow ?_))
      have hadvance : Cursor.Past (fun _ => True) { s with height := s.height + 1 } _ := .advance trivial
      exact (hadvance.trans ((hop _).ok ht)).mono fun _ _ => trivial

theorem same_chainOf {rest rest' : Expr → Parser Expr} (heq : Same s operand operand')
    (h : ∀ e t, operand s = .ok e t → Same t (rest e) (rest' e)) :
    Same s (chainOf operand rest) (chainOf operand' rest') :=
  .bind heq fun e t ht => .get (.last (h e t ht))

/-- Each operator is counted, so the bound of a chain is not met. -/
theorem chainFrom_bound (hop : operand.Passes p) (bound bound' : Nat) {s : Cursor} (hs : s.height ≤ maxHeight)
    (hb : maxHeight < bound + s.height) (hb' : maxHeight < bound' + s.height) (left : Expr) :
    Same s (chainFrom n operand bound left) (chainFrom n operand bound' left) := by
  induction bound generalizing bound' s left with
  | zero => omega
  | succ bound ih =>
    cases bound' with
    | zero => omega
    | succ bound' =>
      refine same_chainStep hop (fun _ => .refl _) fun e t hlow ht => ?_
      have hheight : t.height = s.height + 1 := ht.height
      exact ih bound' (by omega) (by omega) (by omega) e

theorem chainFrom_eq (hop : operand.Passes p) (s : Cursor) (left : Expr) :
    Same s (chainFrom n operand (maxHeight + 1) left)
      (chainStep n operand (chainFrom n operand (maxHeight + 1)) left) := by
  refine same_chainStep hop (fun _ => .refl _) fun e t hlow ht => ?_
  have hheight : t.height = s.height + 1 := ht.height
  exact chainFrom_bound hop maxHeight (maxHeight + 1) (by omega) (by omega) (by omega) e

/-- Operands that are read in the same way at a depth, at whatever height. -/
theorem same_levelled (hop : operand.Passes Token.IsLeaf)
    (h : ∀ s, s.depth = d → Same s operand operand') {n : Nat} (hn : n ≤ 6) :
    ∀ s, s.depth = d → Same s (levelled operand n) (levelled operand' n) := by
  induction hn using Nat.decreasingInduction with
  | self => exact h
  | of_succ n hn ih =>
    have hpasses : (levelled operand (n + 1)).Passes Token.IsLeaf := passes_levelled hop hn
    have hchain : ∀ bound left s, s.depth = d → Same s (chainFrom n (levelled operand (n + 1)) bound left)
        (chainFrom n (levelled operand' (n + 1)) bound left) := by
      intro bound
      induction bound with
      | zero => exact fun _ _ _ => .refl _
      | succ bound ih' =>
        intro left s hs
        refine same_chainStep hpasses (fun _ => ih _ ?_) fun e t _ ht => ih' e t (ht.depth.trans hs)
        rw [Cursor.depth_advance]
        exact hs
    intro s hs
    rw [levelled_of_lt hn, levelled_of_lt hn]
    exact same_chainOf (ih s hs) fun e t ht => hchain _ e t (((hpasses s).ok ht).depth.trans hs)

end

/-! ### Levels of nesting -/

theorem agrees_sepByComma {item item' : Parser α} (h : Agrees s item item') (hp : item.Passes p) :
    Agrees s (sepByComma item) (sepByComma item') := by
  have hgo : ∀ bound, Agrees s (sepByComma.go item bound) (sepByComma.go item' bound) := by
    intro bound
    induction bound with
    | zero => exact .refl _
    | succ bound ih =>
      refine .bind h hp fun a => .get fun t => ?_
      split
      · exact .after .advance fun _ => .last ih
      · exact .refl _
  exact .get fun t => hgo _

theorem agrees_statements {stmt stmt' : Parser Stmt} (h : Agrees s stmt stmt') (hp : stmt.Passes p) :
    Agrees s (statements stmt) (statements stmt') := by
  have hgo : ∀ bound, Agrees s (statements.go stmt bound) (statements.go stmt' bound) := by
    intro bound
    induction bound with
    | zero => exact .refl _
    | succ bound ih =>
      refine .get fun t => ?_
      split
      · exact .refl _
      · exact .refl _
      · exact .bind h hp fun a => .last ih
  exact .get fun t => hgo _

theorem nested_of_deep (h : maxNesting ≤ s.depth) (r : Parser α) : Same s (nested r) (fail .tooDeep) :=
  (bind_of_error (enter_of_le (.inl h))).symm

section

variable {room room' : Nat}

/-- With room for the levels that may be opened, more makes no difference. -/
theorem same_operand (hr : maxNesting ≤ room + s.depth) (hr' : maxNesting ≤ room' + s.depth) :
    Same s (operand room) (operand room') := by
  induction room generalizing room' s with
  | zero =>
    cases room' with
    | zero => exact .refl _
    | succ room' => exact (nested_of_deep (by omega) _).symm
  | succ room ih =>
    cases room' with
    | zero => exact nested_of_deep (by omega) _
    | succ room' =>
      refine .nested fun _ _ => Agrees.same ?_
      generalize hu : ({ s with depth := s.depth + 1, height := s.height + 1 } : Cursor) = u
      have hdepth : u.depth = s.depth + 1 := hu ▸ rfl
      have hop (t : Cursor) (ht : t.depth = u.depth) : Same t (operand room) (operand room') :=
        ih (by omega) (by omega)
      have hexpr : Agrees u (expression room) (expression room') := fun t ht =>
        same_levelled (passes_operand room) hop (Nat.zero_le 6) t ht.depth
      exact agrees_prefixedOf (fun t ht => hop t ht.depth)
        (agrees_primaryOf (agrees_sepByComma hexpr (passes_expression room)) hexpr)

variable (hr : maxNesting ≤ room + s.depth) (hr' : maxNesting ≤ room' + s.depth)

include hr hr'

theorem agrees_expression : Agrees s (expression room) (expression room') := by
  refine fun t ht => same_levelled (passes_operand room) (fun u hu => ?_) (Nat.zero_le 6) t ht.depth
  rw [← hu] at hr hr'
  exact same_operand hr hr'

theorem agrees_primary : Agrees s (primary (expression room)) (primary (expression room')) :=
  agrees_primaryOf (agrees_sepByComma (agrees_expression hr hr') (passes_expression room))
    (agrees_expression hr hr')

end

theorem agrees_statement {room room' : Nat} {block block' : Parser (List Stmt)}
    (hexpr : Agrees s (expression room) (expression room')) (hblock : Agrees s block block') :
    Agrees s (statement room block) (statement room' block') :=
  agrees_statementOf (agrees_declarationOf hexpr) (agrees_conditionOf hexpr) (passes_condition room) hexpr
    hblock

/-- A block is one level deeper, and so is what stands in it. -/
theorem same_blockOf {body body' : Parser (List Stmt)} (h : ∀ t, t.lexemes <:+ s.lexemes →
      s.depth < maxNesting → t.depth = s.depth + 1 → s.height < maxHeight → t.height = s.height + 1 →
        Same t body body') : Same s (blockOf body) (blockOf body') := by
  refine .after fun _ t ht => .after fun _ u hu => .last ?_
  have hpast := (Passes.expectMark .openBrace s).ok ht
  obtain ⟨hd, hh, rfl⟩ := enter_eq_ok hu
  have hdepth := hpast.depth
  have hheight := hpast.height
  exact h _ hpast.suffix (by omega) (by simp [hdepth]) (by omega) (by simp [hheight])

theorem blockOf_of_deep (h : maxNesting ≤ s.depth) (body : Parser (List Stmt)) :
    Same s (block 0) (blockOf body) := by
  refine .after fun _ t ht => bind_of_error (enter_of_le (.inl ?_))
  rw [((Passes.expectMark .openBrace s).ok ht).depth]
  exact h

theorem same_block {room room' : Nat} (hr : maxNesting ≤ room + s.depth)
    (hr' : maxNesting ≤ room' + s.depth) : Same s (block room) (block room') := by
  induction room generalizing room' s with
  | zero =>
    cases room' with
    | zero => exact .refl _
    | succ room' => exact blockOf_of_deep (by omega) _
  | succ room ih =>
    cases room' with
    | zero => exact (blockOf_of_deep (by omega) _).symm
    | succ room' =>
      refine same_blockOf fun t _ _ hdepth _ _ => ?_
      have hblock : Agrees t (block room) (block room') := fun u hu => by
        have hu := hu.depth
        exact ih (by omega) (by omega)
      have hexpr : Agrees t (expression room) (expression room') :=
        agrees_expression (by omega) (by omega)
      have hstmt := agrees_statement hexpr hblock
      exact (agrees_statements hstmt (passes_statement (passes_block room))).same

/-! ### Where calls are made -/

/-- The order in which readers call each other where nothing is taken and nothing more is counted. -/
def Task.rank : Task → Nat
  | operand => 0
  | chain n _ => 2 * (7 - n)
  | level n => 2 * (7 - n) + 1
  | args => 16
  | primary | declaration | condition | params | block => 17
  | statement => 18
  | statements | function => 19
  | decl => 20
  | program => 21

/-- A reader at a cursor. -/
structure Activity where
  task : Task
  cursor : Cursor

/-- From `a` to `b` the position moves forward, or a counter goes up towards its limit, or the reader comes
later in the order of ranks. Neither the position nor a counter goes back. -/
structure Onward (a b : Activity) : Prop where
  suffix : b.cursor.lexemes <:+ a.cursor.lexemes
  depth : b.cursor.depth = a.cursor.depth ∨
    a.cursor.depth < b.cursor.depth ∧ b.cursor.depth ≤ maxNesting
  height : b.cursor.height = a.cursor.height ∨
    a.cursor.height < b.cursor.height ∧ b.cursor.height ≤ maxHeight
  moves : b.cursor.lexemes.length < a.cursor.lexemes.length ∨ a.cursor.depth < b.cursor.depth ∨
    a.cursor.height < b.cursor.height ∨ b.task.rank < a.task.rank

namespace Onward

variable {k k' : Task}

theorem lower (h : s.Past (fun _ => True) t) (hk : k'.rank < k.rank) : Onward ⟨k, s⟩ ⟨k', t⟩ :=
  ⟨h.suffix, .inl h.depth, .inl h.height, .inr (.inr (.inr hk))⟩

theorem shorter (h : s.Past (fun _ => True) t) (hlt : t.lexemes.length < s.lexemes.length) :
    Onward ⟨k, s⟩ ⟨k', t⟩ :=
  ⟨h.suffix, .inl h.depth, .inl h.height, .inl hlt⟩

/-- A level is opened. -/
theorem deeper (hsuffix : t.lexemes <:+ s.lexemes) (hd : s.depth < maxNesting)
    (hdepth : t.depth = s.depth + 1) (hh : s.height < maxHeight) (hheight : t.height = s.height + 1) :
    Onward ⟨k, s⟩ ⟨k', t⟩ := by
  have hd' : s.depth < t.depth ∧ t.depth ≤ maxNesting := by omega
  have hh' : s.height < t.height ∧ t.height ≤ maxHeight := by omega
  exact ⟨hsuffix, .inr hd', .inr hh', .inr (.inl hd'.1)⟩

/-- An operator is counted. -/
theorem counted (hh : s.height < maxHeight)
    (h : Cursor.Past (fun _ => True) { s with height := s.height + 1 } t) : Onward ⟨k, s⟩ ⟨k', t⟩ := by
  have hheight : t.height = s.height + 1 := h.height
  have hh' : s.height < t.height ∧ t.height ≤ maxHeight := by omega
  exact ⟨h.suffix, .inl h.depth, .inr hh', .inr (.inr (.inl hh'.1))⟩

end Onward

theorem levelled_of_le {operand : Parser Expr} {n : Nat} (h : 6 ≤ n) : levelled operand n = operand := by
  rw [levelled, List.drop_of_length_le (by simpa using h), List.foldr_nil]

theorem passes_level (room n : Nat) : (levelled (operand room) n).Passes Token.IsLeaf := by
  rcases Nat.le_total n 6 with hn | hn
  · exact passes_levelled (passes_operand room) hn
  · rw [levelled_of_le hn]
    exact passes_operand room

theorem primary_eq : primaryOf (commas (expression maxNesting)) (expression maxNesting) =
    primary (expression maxNesting) := by
  have henclosed : enclosed (commas (expression maxNesting)) = parenthesized (expression maxNesting) :=
    enclosed_commas (passes_expression _) nofun
  unfold primaryOf
  rw [henclosed]
  rfl

theorem function_eq : functionOf (commas param) (block maxNesting) = function := by
  have henclosed : enclosed (commas param) = parenthesized param := enclosed_commas passes_param nofun
  unfold functionOf
  rw [henclosed]
  rfl

/-- What a reader does depends on its calls only as far as they are made onward. -/
theorem body_congr {call : ∀ k : Task, Parser k.Value} {k : Task}
    (h : ∀ k' t, Onward ⟨k, s⟩ ⟨k', t⟩ → Same t (run k') (call k')) :
    Same s (run k) (body call k) := by
  have lower (k' : Task) (hk : k'.rank < k.rank) : Agrees s (run k') (call k') :=
    fun t ht => h k' t (.lower ht hk)
  have shorter (k' : Task) (t : Cursor) (ht : s.Past (fun _ => True) t)
      (hlt : t.lexemes.length < s.lexemes.length) : Same t (run k') (call k') := h k' t (.shorter ht hlt)
  cases k with
  | program =>
    exact (program_eq s).trans
      (same_programStep passes_decl (lower .decl (by decide)).same fun t => shorter .program t)
  | decl => exact (agrees_declOf (lower .function (by decide)) (lower .statement (by decide))).same
  | function =>
    have hpasses : (enclosed (commas param)).Passes fun _ => False := by
      rw [enclosed_commas passes_param nofun]
      exact .parenthesized passes_param
    have hsame := (agrees_functionOf (lower .params (by decide)) hpasses (lower .block (by decide))).same
    rwa [show functionOf (run .params) (run .block) = run .function from function_eq] at hsame
  | params =>
    exact (commas_eq passes_param nofun s).trans
      (same_commaStep passes_param nofun (.refl _) fun t ht _ => shorter .params t ht)
  | block =>
    refine same_blockOf fun t hsuffix hd hdepth hh hheight => ?_
    -- what stands in the block has a level less to open, and one more is open
    have hless : maxNesting ≤ maxNesting - 1 + t.depth := by omega
    have hmore : maxNesting ≤ maxNesting + t.depth := Nat.le_add_right _ _
    have hblock : Agrees t (block (maxNesting - 1)) (block maxNesting) := fun u hu => by
      rw [← hu.depth] at hless hmore
      exact same_block hless hmore
    have hstatements := agrees_statements (agrees_statement (agrees_expression hless hmore) hblock)
      (passes_statement (passes_block _))
    exact hstatements.same.trans (h .statements t (.deeper hsuffix hd hdepth hh hheight))
  | statements =>
    have hpasses : (statement maxNesting (block maxNesting)).Passes _ :=
      passes_statement (passes_block maxNesting)
    exact (statements_eq hpasses s).trans
      (same_statementsStep hpasses (lower .statement (by decide)).same fun t => shorter .statements t)
  | statement =>
    exact (agrees_statementOf (lower .declaration (by decide)) (lower .condition (by decide))
      (passes_condition _) (lower (.level 0) (by decide)) (lower .block (by decide))).same
  | declaration => exact (agrees_declarationOf (lower (.level 0) (by decide))).same
  | condition => exact (agrees_conditionOf (lower (.level 0) (by decide))).same
  | level n =>
    show Same s (levelled (operand maxNesting) n) (if n < 6 then _ else _)
    split
    · next hn =>
      have hlevel := (lower (.level (n + 1)) (by simp only [Task.rank]; omega)).same
      rw [levelled_of_lt hn]
      refine same_chainOf hlevel fun e t ht => lower (.chain n e) (by simp only [Task.rank]; omega) t ?_
      exact ((passes_level maxNesting _ s).ok ht).mono fun _ _ => trivial
    · next hn =>
      rw [levelled_of_le (Nat.le_of_not_lt hn)]
      exact (lower .operand (by simp only [Task.rank]; omega)).same
  | chain n left =>
    have hpasses := passes_level maxNesting (n + 1)
    refine (chainFrom_eq hpasses s left).trans ?_
    show Same s _ (chainStep n (call (.level (n + 1))) (fun e => call (.chain n e)) left)
    exact same_chainStep hpasses (fun hh => h (.level (n + 1)) _ (.counted hh (.advance trivial)))
      fun e t hh ht => h (.chain n e) t (.counted hh ht)
  | operand =>
    refine .nested fun hd hh => Agrees.same ?_
    generalize hu : ({ s with depth := s.depth + 1, height := s.height + 1 } : Cursor) = u
    have hdeeper {k' : Task} {t : Cursor} (ht : u.Past (fun _ => True) t) :
        Onward ⟨.operand, s⟩ ⟨k', t⟩ := by
      subst hu
      exact .deeper ht.suffix hd ht.depth hh ht.height
    have hdepth : u.depth = s.depth + 1 := hu ▸ rfl
    have hless : maxNesting ≤ maxNesting - 1 + u.depth := by omega
    have hmore : maxNesting ≤ maxNesting + u.depth := Nat.le_add_right _ _
    refine agrees_prefixedOf (fun t ht => ?_) fun t ht => ?_
    · have hop : Same t (operand (maxNesting - 1)) (operand maxNesting) := by
        rw [← ht.depth] at hless hmore
        exact same_operand hless hmore
      exact hop.trans (h .operand t (hdeeper ht))
    · exact (agrees_primary hless hmore t ht).trans (h .primary t (hdeeper ht))
  | primary =>
    have hsame := (agrees_primaryOf (lower .args (by decide)) (lower (.level 0) (by decide))).same
    rwa [show primaryOf (run .args) (run (.level 0)) = run .primary from primary_eq] at hsame
  | args =>
    have hpasses := passes_expression maxNesting
    exact (commas_eq hpasses nofun s).trans
      (same_commaStep hpasses nofun (lower (.level 0) (by decide)).same fun t ht _ => shorter .args t ht)

/-- The readers do what they do without bounds. -/
theorem run_eq_body (k : Task) : run k = body run k := by
  funext s
  exact (body_congr fun _ _ _ => .refl _).symm

end Parser

end Labyrinth
