import Mathlib.Logic.Relation
import Labyrinth.Proofs.Parsing.Recursion

/-!
# The steps of the readers

`Parser.steps` writes down the readers as steps (`Parser.Steps`), one after the other, and the readers do just
these (`Parser.run_steps`). Every change of a counter is a step of its own. `Parser.Next` goes from one moment of
the reading to the next, into the calls that are made and past them, so whatever the parser is at while it reads
is reached by it.
-/

namespace Labyrinth

namespace Parser

/-- The reader leaves the counters as they are, however it ends. -/
def Flat {α : Type} (r : Parser α) : Prop :=
  ∀ s, match r s with
    | .ok _ t => t.depth = s.depth ∧ t.height = s.height
    | .error _ t => t.depth = s.depth ∧ t.height = s.height

/-- Counts an operator of a chain. -/
def raise : Parser Unit := do
  let s ← get
  if maxHeight ≤ s.height then fail .tooDeep
  set { s with height := s.height + 1 }

/-- Goes on after a reader however it ends. -/
def afterwards {α β : Type} (r : Parser α) (next : Except SyntaxError α → Parser β) : Parser β := fun s =>
  match r s with
  | .ok a t => next (.ok a) t
  | .error e t => next (.error e) t

/-- The steps of a reader. -/
inductive Steps : Type → Type 1
  | done {α : Type} (a : α) : Steps α
  | stop {α : Type} (e : SyntaxError) : Steps α
  /-- A part that leaves the counters as they are. -/
  | take {α β : Type} (r : Parser β) (flat : r.Flat) (next : β → Steps α) : Steps α
  | enter {α : Type} (next : Steps α) : Steps α
  | leave {α : Type} (next : Steps α) : Steps α
  | raise {α : Type} (next : Steps α) : Steps α
  | restore {α : Type} (height : Nat) (next : Steps α) : Steps α
  | call {α : Type} (k : Task) (next : k.Value → Steps α) : Steps α
  /-- Steps whose failure does not end the reader. -/
  | attempt {α β : Type} (inner : Steps β) (next : Except SyntaxError β → Steps α) : Steps α

namespace Steps

variable {α β : Type}

def bind {α β : Type} : Steps α → (α → Steps β) → Steps β
  | done a, f => f a
  | stop e, _ => stop e
  | take r flat next, f => take r flat fun a => (next a).bind f
  | enter next, f => enter (next.bind f)
  | leave next, f => leave (next.bind f)
  | raise next, f => raise (next.bind f)
  | restore height next, f => restore height (next.bind f)
  | call k next, f => call k fun a => (next a).bind f
  | attempt inner next, f => attempt inner fun a => (next a).bind f

instance : Monad Steps where
  pure := done
  bind := bind

/-- Does the steps, with `call` for the calls. -/
def run (call : ∀ k : Task, Parser k.Value) {α : Type} : Steps α → Parser α
  | done a => pure a
  | stop e => throw e
  | take r _ next => r >>= fun a => (next a).run call
  | enter next => Parser.enter >>= fun _ => next.run call
  | leave next => modify Parser.leave >>= fun _ => next.run call
  | raise next => Parser.raise >>= fun _ => next.run call
  | restore height next => modify (fun s => { s with height }) >>= fun _ => next.run call
  | .call k next => call k >>= fun a => (next a).run call
  | attempt inner next => (inner.run call).afterwards fun a => (next a).run call

end Steps

/-! ### Parts that leave the counters as they are -/

section

variable {α β : Type}

theorem flat_get : (get : Parser Cursor).Flat := fun _ => ⟨rfl, rfl⟩

theorem flat_advance : advance.Flat := fun s => ⟨s.depth_advance, s.height_advance⟩

theorem flat_pure (a : α) : (pure a : Parser α).Flat := fun _ => ⟨rfl, rfl⟩

theorem flat_throw (e : SyntaxError) : (throw e : Parser α).Flat := fun _ => ⟨rfl, rfl⟩

theorem flat_unexpected (wanted : Expected) : (unexpected wanted : Parser α).Flat := fun _ => ⟨rfl, rfl⟩

theorem Flat.bind {r : Parser α} {f : α → Parser β} (hr : r.Flat) (hf : ∀ a, (f a).Flat) : (r >>= f).Flat := by
  intro s
  have h := hr s
  cases hs : r s with
  | error e t =>
    rw [bind_of_error hs]
    rwa [hs] at h
  | ok a t =>
    rw [bind_of_ok hs]
    rw [hs] at h
    rw [← h.1, ← h.2]
    exact hf a t

theorem flat_expect (t : Token) : (expect t).Flat := by
  refine .bind flat_get fun s => ?_
  split
  · exact flat_advance
  · exact flat_unexpected _

theorem flat_expectName (wanted : Expected) : (expectName wanted).Flat := by
  refine .bind flat_get fun s => ?_
  split
  · exact .bind flat_advance fun _ => flat_pure _
  · exact flat_unexpected _

theorem flat_expectType : expectType.Flat := by
  refine .bind flat_get fun s => ?_
  split
  · exact .bind flat_advance fun _ => flat_pure _
  · exact flat_unexpected _

theorem flat_param : param.Flat :=
  .bind flat_expectType fun _ => .bind flat_get fun _ => .bind (flat_expectName _) fun _ => flat_pure _

theorem flat_literal (raw : String) (i : Location) : (literal raw i).Flat := by
  unfold literal
  split
  · split
    · exact flat_pure _
    · exact flat_throw _
  · split
    · exact flat_pure _
    · exact flat_throw _

end

/-! ### The readers as steps -/

namespace Steps

variable {α : Type}

def part (r : Parser α) (flat : r.Flat) : Steps α := take r flat done

def look : Steps Cursor := part get flat_get

def advance : Steps Unit := part Parser.advance flat_advance

def unexpected (wanted : Expected) : Steps α := part (Parser.unexpected wanted) (flat_unexpected wanted)

def expect (t : Token) : Steps Unit := part (Parser.expect t) (flat_expect t)

def expectMark (mark : Punctuation) : Steps Unit := part (Parser.expectMark mark) (flat_expect _)

def expectName (wanted : Expected) : Steps String := part (Parser.expectName wanted) (flat_expectName wanted)

def expectType : Steps Ty := part Parser.expectType flat_expectType

def literal (raw : String) (i : Location) : Steps Expr := part (Parser.literal raw i) (flat_literal raw i)

def param : Steps Param := part Parser.param flat_param

def read (k : Task) : Steps k.Value := call k done

/-- Steps inside a level that is closed however they end. -/
def nested (inner : Steps α) : Steps α :=
  enter <| attempt inner fun
    | .ok a => leave (done a)
    | .error e => leave (stop e)

def commaStep (item : Steps α) (again : Steps (List α)) : Steps (List α) := do
  let a ← item
  if (← look).token = .punctuation .comma then
    advance
    return a :: (← again)
  else return [a]

def enclosed (items : Steps (List α)) : Steps (List α) := do
  expectMark .openParen
  let items ←
    if (← look).token = .punctuation .closeParen then pure [] else items
  expectMark .closeParen
  return items

def chainStep (n : Nat) (operand : Steps Expr) (again : Expr → Steps Expr) (left : Expr) : Steps Expr := do
  let s ← look
  match BinaryOp.ofToken? n s.token with
  | none => return left
  | some op =>
    raise do
      advance
      let right ← operand
      again (.binary left.loc op left right)

def chainOf (operand : Steps Expr) (rest : Expr → Steps Expr) : Steps Expr := do
  let first ← operand
  let s ← look
  let whole ← rest first
  restore s.height (return whole)

def primaryOf (args : Steps (List Expr)) (inner : Steps Expr) : Steps Expr := do
  let s ← look
  match s.token with
  | .number raw => advance; literal raw s.loc
  | .boolean value => advance; return .bool s.loc value
  | .identifier name =>
    advance
    if (← look).token = .punctuation .openParen then
      return .call s.loc name (← enclosed args)
    else return .var s.loc name
  | .punctuation .openParen =>
    advance
    let e ← inner
    expectMark .closeParen
    return e.relocate s.loc
  | _ => unexpected .expression

def prefixedOf (operand primary : Steps Expr) : Steps Expr := do
  let s ← look
  match UnaryOp.ofToken? s.token with
  | some op => advance; return .unary s.loc op (← operand)
  | none => primary

def declarationOf (expr : Steps Expr) : Steps Stmt := do
  let loc := (← look).loc
  let ty ← expectType
  let name ← expectName .variableName
  expect (.operator .assign)
  let init ← expr
  expectMark .semicolon
  return .declare loc ty name init

def conditionOf (expr : Steps Expr) : Steps Expr := do
  expectMark .openParen
  let test ← expr
  expectMark .closeParen
  return test

def statementOf (declaration : Steps Stmt) (condition expr : Steps Expr) (block : Steps (List Stmt)) :
    Steps Stmt := do
  let s ← look
  match s.token with
  | .keyword (.type .int) | .keyword (.type .float) | .keyword (.type .bool) => declaration
  | .keyword .cond =>
    advance
    let test ← condition
    return .cond s.loc test (← block)
  | .keyword .loop =>
    advance
    let test ← condition
    return .loop s.loc test (← block)
  | .keyword .ret =>
    advance
    let value ←
      if (← look).token = .punctuation .semicolon then pure none else some <$> expr
    expectMark .semicolon
    return .ret s.loc value
  | .punctuation .openBrace => return .block s.loc (← block)
  | .identifier name =>
    if s.nextToken = .operator .assign then
      advance
      advance
      let value ← expr
      expectMark .semicolon
      return .assign s.loc name value
    else
      let value ← expr
      expectMark .semicolon
      return .eval value
  | _ =>
    let value ← expr
    expectMark .semicolon
    return .eval value

def statementsStep (stmt : Steps Stmt) (again : Steps (List Stmt)) : Steps (List Stmt) := do
  match (← look).token with
  | .punctuation .closeBrace => return []
  | .endOfInput => unexpected (.token (.punctuation .closeBrace))
  | _ =>
    let s ← stmt
    return s :: (← again)

/-- The level is left open where the statements fail. -/
def blockOf (body : Steps (List Stmt)) : Steps (List Stmt) := do
  expectMark .openBrace
  enter do
    let body ← body
    leave do
      expectMark .closeBrace
      return body

def functionOf (params : Steps (List Param)) (block : Steps (List Stmt)) : Steps Function := do
  let loc := (← look).loc
  expect (.keyword .func)
  let ret ← expectType
  let name ← expectName .functionName
  let params ← enclosed params
  let body ← block
  return ⟨loc, ret, name, params, body⟩

def declOf (function : Steps Function) (stmt : Steps Stmt) : Steps Decl := do
  if (← look).token = .keyword .func then .function <$> function
  else .stmt <$> stmt

def programStep (decl : Steps Decl) (again : Steps Program) : Steps Program := do
  if (← look).token = .endOfInput then return []
  else
    let d ← decl
    return d :: (← again)

end Steps

open Steps (read) in
/-- The steps of a reader, as `body` has them. -/
def steps : ∀ k : Task, Steps k.Value
  | .program => .programStep (read .decl) (read .program)
  | .decl => .declOf (read .function) (read .statement)
  | .function => .functionOf (read .params) (read .block)
  | .params => .commaStep .param (read .params)
  | .block => .blockOf (read .statements)
  | .statements => .statementsStep (read .statement) (read .statements)
  | .statement => .statementOf (read .declaration) (read .condition) (read (.level 0)) (read .block)
  | .declaration => .declarationOf (read (.level 0))
  | .condition => .conditionOf (read (.level 0))
  | .level n =>
    if n < 6 then .chainOf (read (.level (n + 1))) fun left => read (.chain n left) else read .operand
  | .chain n left => .chainStep n (read (.level (n + 1))) (fun e => read (.chain n e)) left
  | .operand => .nested (.prefixedOf (read .operand) (read .primary))
  | .primary => .primaryOf (read .args) (read (.level 0))
  | .args => .commaStep (read (.level 0)) (read .args)

/-! ### What the steps do -/

section

variable {call : ∀ k : Task, Parser k.Value} {α β : Type}

theorem raise_of_le {s : Cursor} (h : maxHeight ≤ s.height) : raise s = .error ⟨.tooDeep, s.loc⟩ s := by
  show (if _ then fail .tooDeep else _ : Parser Unit) s = _
  rw [if_pos h]
  rfl

theorem raise_of_lt {s : Cursor} (h : ¬maxHeight ≤ s.height) :
    raise s = .ok () { s with height := s.height + 1 } := by
  show (if _ then fail .tooDeep else set _ : Parser Unit) s = _
  rw [if_neg h]
  rfl

theorem afterwards_bind {γ : Type} (r : Parser α) (next : Except SyntaxError α → Parser β) (f : β → Parser γ) :
    r.afterwards next >>= f = r.afterwards fun a => next a >>= f := by
  funext s
  show EStateM.bind _ f s = _
  unfold EStateM.bind afterwards
  cases r s <;> rfl

/-- A level is closed behind what is read in it, be it read or not. -/
theorem nested_eq (r : Parser α) :
    nested r = enter >>= fun _ => r.afterwards fun
      | .ok a => modify leave >>= fun _ => pure a
      | .error e => modify leave >>= fun _ => throw e := by
  refine congrArg (enter >>= ·) (funext fun _ => funext fun s => ?_)
  unfold afterwards
  cases r s <;> rfl

namespace Steps

theorem run_bind (x : Steps α) (f : α → Steps β) :
    (x >>= f).run call = x.run call >>= fun a => (f a).run call := by
  induction x with
  | done a => rfl
  | stop e => rfl
  | take r _ next ih => exact (congrArg (r >>= ·) (funext fun a => ih a f)).trans (bind_assoc _ _ _).symm
  | enter next ih => exact (congrArg (Parser.enter >>= ·) (funext fun _ => ih f)).trans (bind_assoc _ _ _).symm
  | leave next ih => exact (congrArg (_ >>= ·) (funext fun _ => ih f)).trans (bind_assoc _ _ _).symm
  | raise next ih => exact (congrArg (Parser.raise >>= ·) (funext fun _ => ih f)).trans (bind_assoc _ _ _).symm
  | restore height next ih => exact (congrArg (_ >>= ·) (funext fun _ => ih f)).trans (bind_assoc _ _ _).symm
  | call k next ih => exact (congrArg (_ >>= ·) (funext fun a => ih a f)).trans (bind_assoc _ _ _).symm
  | attempt inner next _ ih =>
    exact (congrArg (afterwards _) (funext fun a => ih a f)).trans (afterwards_bind _ _ _).symm

/-- Done with these calls, the steps do what the reader does. -/
def Does (call : ∀ k : Task, Parser k.Value) (x : Steps α) (r : Parser α) : Prop := x.run call = r

namespace Does

variable {x : Steps α} {r : Parser α}

theorem pure (a : α) : Does call (pure a) (pure a) := rfl

theorem bind {f : α → Steps β} {g : α → Parser β} (hx : Does call x r) (hf : ∀ a, Does call (f a) (g a)) :
    Does call (x >>= f) (r >>= g) := by
  rw [Does, run_bind, hx]
  exact congrArg (r >>= ·) (funext hf)

theorem map {f : α → β} (hx : Does call x r) : Does call (f <$> x) (f <$> r) :=
  bind hx fun a => pure (f a)

theorem part {flat : r.Flat} : Does call (part r flat) r := bind_pure r

theorem read (k : Task) : Does call (read k) (call k) := bind_pure (call k)

theorem eval : Does call (do let value ← Steps.read (.level 0); Steps.expectMark .semicolon; return Stmt.eval value)
    (do let value ← call (.level 0); Parser.expectMark .semicolon; return Stmt.eval value) :=
  .bind (.read _) fun _ => .bind .part fun _ => .pure _

theorem nested (hx : Does call x r) : Does call (nested x) (Parser.nested r) := by
  rw [Does, nested_eq, ← hx]
  refine congrArg (Parser.enter >>= ·) (funext fun _ => congrArg (afterwards _) (funext fun a => ?_))
  cases a <;> rfl

theorem enter (hx : Does call x r) : Does call (enter x) (Parser.enter >>= fun _ => r) :=
  congrArg (Parser.enter >>= ·) (funext fun _ => hx)

theorem leave (hx : Does call x r) : Does call (leave x) (modify Parser.leave >>= fun _ => r) :=
  congrArg (modify Parser.leave >>= ·) (funext fun _ => hx)

theorem commaStep {item : Steps α} {again : Steps (List α)} {item' : Parser α} {again' : Parser (List α)}
    (hitem : Does call item item') (hagain : Does call again again') :
    Does call (commaStep item again) (Parser.commaStep item' again') := by
  refine .bind hitem fun a => .bind .part fun s => ?_
  split
  · exact .bind .part fun _ => .bind hagain fun _ => .pure _
  · exact .pure _

theorem chainStep {n : Nat} {operand : Steps Expr} {again : Expr → Steps Expr} {operand' : Parser Expr}
    {again' : Expr → Parser Expr} {left : Expr} (hop : Does call operand operand')
    (hagain : ∀ e, Does call (again e) (again' e)) :
    Does call (chainStep n operand again left) (Parser.chainStep n operand' again' left) := by
  funext s
  show (match BinaryOp.ofToken? n s.token with | none => _ | some op => _ : Steps Expr).run call s =
    (match BinaryOp.ofToken? n s.token with | none => _ | some op => _ : Parser Expr) s
  cases BinaryOp.ofToken? n s.token with
  | none => rfl
  | some op =>
    have hrest : Does call (do Steps.advance; let right ← operand; again (.binary left.loc op left right))
        (do Parser.advance; let right ← operand'; again' (.binary left.loc op left right)) :=
      .bind .part fun _ => .bind hop fun right => hagain _
    show (Parser.raise >>= fun _ => Steps.run call _) s = (if _ then _ else _ : Parser Expr) s
    rw [show Steps.run call _ = _ from hrest]
    split
    · next hs => exact bind_of_error (raise_of_le hs)
    · next hs => exact bind_of_ok (raise_of_lt hs)

theorem enclosed {items : Steps (List α)} {items' : Parser (List α)} (hitems : Does call items items') :
    Does call (enclosed items) (Parser.enclosed items') := by
  refine .bind .part fun _ => .bind .part fun s => ?_
  split
  · exact .bind (.pure _) fun _ => .bind .part fun _ => .pure _
  · exact .bind hitems fun _ => .bind .part fun _ => .pure _

end Does

end Steps

open Steps in
theorem does_steps (k : Task) : Does call (steps k) (body call k) := by
  cases k with
  | program =>
    refine .bind .part fun s => ?_
    split
    · exact .pure _
    · exact .bind (.read _) fun _ => .bind (.read _) fun _ => .pure _
  | decl =>
    refine .bind .part fun s => ?_
    split
    · exact .map (.read _)
    · exact .map (.read _)
  | function =>
    exact .bind .part fun _ => .bind .part fun _ => .bind .part fun _ => .bind .part fun _ =>
      .bind (.enclosed (.read _)) fun _ => .bind (.read _) fun _ => .pure _
  | params => exact .commaStep .part (.read _)
  | block =>
    exact .bind .part fun _ => .enter <| .bind (.read _) fun _ => .leave <| .bind .part fun _ => .pure _
  | statements =>
    refine .bind .part fun s => ?_
    generalize s.token = x
    cases x with
    | punctuation mark =>
      cases mark with
      | closeBrace => exact .pure _
      | _ => exact .bind (.read _) fun _ => .bind (.read _) fun _ => .pure _
    | endOfInput => exact .part
    | _ => exact .bind (.read _) fun _ => .bind (.read _) fun _ => .pure _
  | statement =>
    refine .bind .part fun s => ?_
    generalize s.token = x
    cases x with
    | keyword word =>
      cases word with
      | type ty =>
        cases ty with
        | void => exact .eval
        | _ => exact .read _
      | cond => exact .bind .part fun _ => .bind (.read _) fun _ => .bind (.read _) fun _ => .pure _
      | loop => exact .bind .part fun _ => .bind (.read _) fun _ => .bind (.read _) fun _ => .pure _
      | ret =>
        refine .bind .part fun _ => .bind .part fun t => ?_
        split
        · exact .bind (.pure _) fun _ => .bind .part fun _ => .pure _
        · exact .bind (.map (.read _)) fun _ => .bind .part fun _ => .pure _
      | func => exact .eval
    | punctuation mark =>
      cases mark with
      | openBrace => exact .bind (.read _) fun _ => .pure _
      | _ => exact .eval
    | identifier name =>
      show Does call (if _ then _ else _) (if _ then _ else _)
      split
      · exact .bind .part fun _ => .bind .part fun _ => .bind (.read _) fun _ => .bind .part fun _ => .pure _
      · exact .eval
    | _ => exact .eval
  | declaration =>
    exact .bind .part fun _ => .bind .part fun _ => .bind .part fun _ => .bind .part fun _ =>
      .bind (.read _) fun _ => .bind .part fun _ => .pure _
  | condition => exact .bind .part fun _ => .bind (.read _) fun _ => .bind .part fun _ => .pure _
  | level n =>
    show Does call (if n < 6 then _ else _) (if n < 6 then _ else _)
    split
    · exact .bind (.read _) fun _ => .bind .part fun s => .bind (.read _) fun _ => rfl
    · exact .read _
  | chain n left => exact .chainStep (.read _) fun e => .read (.chain n e)
  | operand =>
    refine .nested (.bind .part fun s => ?_)
    cases UnaryOp.ofToken? s.token with
    | some op => exact .bind .part fun _ => .bind (.read _) fun _ => .pure _
    | none => exact .read _
  | primary =>
    refine .bind .part fun s => ?_
    generalize s.token = x
    cases x with
    | number raw => exact .bind .part fun _ => .part
    | boolean value => exact .bind .part fun _ => .pure _
    | identifier name =>
      refine .bind .part fun _ => .bind .part fun t => ?_
      split
      · exact .bind (.enclosed (.read _)) fun _ => .pure _
      · exact .pure _
    | punctuation mark =>
      cases mark with
      | openParen => exact .bind .part fun _ => .bind (.read _) fun _ => .bind .part fun _ => .pure _
      | _ => exact .part
    | _ => exact .part
  | args => exact .commaStep (.read _) (.read _)

/-- The readers do their steps. -/
theorem run_steps (k : Task) : (steps k).run run = run k :=
  (does_steps k).trans (run_eq_body k).symm

end

/-! ### Moments -/

/-- A cursor and the steps that a reader has still to do there. -/
structure Moment where
  {Result : Type}
  steps : Steps Result
  cursor : Cursor

/-- From a moment to the next. Steps that may fail and calls are gone into and gone past. -/
inductive Next : Moment → Moment → Prop
  | take {α β : Type} {r : Parser β} {flat : r.Flat} {next : β → Steps α} {s t : Cursor} {a : β} :
      r s = .ok a t → Next ⟨.take r flat next, s⟩ ⟨next a, t⟩
  | enter {α : Type} {next : Steps α} {s t : Cursor} :
      Parser.enter s = .ok ⟨⟩ t → Next ⟨.enter next, s⟩ ⟨next, t⟩
  | leave {α : Type} {next : Steps α} {s : Cursor} : Next ⟨.leave next, s⟩ ⟨next, Parser.leave s⟩
  | raise {α : Type} {next : Steps α} {s t : Cursor} :
      Parser.raise s = .ok ⟨⟩ t → Next ⟨.raise next, s⟩ ⟨next, t⟩
  | restore {α : Type} {height : Nat} {next : Steps α} {s : Cursor} :
      Next ⟨.restore height next, s⟩ ⟨next, { s with height }⟩
  | intoCall {α : Type} {k : Task} {next : k.Value → Steps α} {s : Cursor} :
      Next ⟨.call k next, s⟩ ⟨Parser.steps k, s⟩
  | pastCall {α : Type} {k : Task} {next : k.Value → Steps α} {s t : Cursor} {a : k.Value} :
      Parser.run k s = .ok a t → Next ⟨.call k next, s⟩ ⟨next a, t⟩
  | intoAttempt {α β : Type} {inner : Steps β} {next : Except SyntaxError β → Steps α} {s : Cursor} :
      Next ⟨.attempt inner next, s⟩ ⟨inner, s⟩
  | pastValue {α β : Type} {inner : Steps β} {next : Except SyntaxError β → Steps α} {s t : Cursor} {a : β} :
      inner.run Parser.run s = .ok a t → Next ⟨.attempt inner next, s⟩ ⟨next (.ok a), t⟩
  | pastError {α β : Type} {inner : Steps β} {next : Except SyntaxError β → Steps α} {s t : Cursor}
      {e : SyntaxError} :
      inner.run Parser.run s = .error e t → Next ⟨.attempt inner next, s⟩ ⟨next (.error e), t⟩

theorem exists_of_bind {α β : Type} {r : Parser α} {f : α → Parser β} {b : β} {s t : Cursor}
    (h : (r >>= f) s = .ok b t) : ∃ a u, r s = .ok a u ∧ f a u = .ok b t := by
  cases hr : r s with
  | error e u => cases (bind_of_error hr).symm.trans h
  | ok a u => exact ⟨a, u, rfl, (bind_of_ok hr).symm.trans h⟩

/-- Where the steps end in a value, the moments do. -/
theorem Steps.reaches_done {α : Type} {x : Steps α} {a : α} {s t : Cursor} (h : x.run Parser.run s = .ok a t) :
    Relation.ReflTransGen Next ⟨x, s⟩ ⟨.done a, t⟩ := by
  induction x generalizing s with
  | done b =>
    cases h
    exact .refl
  | stop e => cases h
  | take r flat next ih =>
    obtain ⟨b, u, hr, h⟩ := exists_of_bind h
    exact .head (.take hr) (ih b h)
  | enter next ih =>
    obtain ⟨⟨⟩, u, hr, h⟩ := exists_of_bind h
    exact .head (.enter hr) (ih h)
  | leave next ih => exact .head .leave (ih h)
  | raise next ih =>
    obtain ⟨⟨⟩, u, hr, h⟩ := exists_of_bind h
    exact .head (.raise hr) (ih h)
  | restore height next ih => exact .head .restore (ih h)
  | call k next ih =>
    obtain ⟨b, u, hr, h⟩ := exists_of_bind h
    exact .head (.pastCall hr) (ih b h)
  | attempt inner next _ ih =>
    simp only [run, afterwards] at h
    split at h
    · next hr => exact .head (.pastValue hr) (ih _ h)
    · next hr => exact .head (.pastError hr) (ih _ h)

end Parser

end Labyrinth
