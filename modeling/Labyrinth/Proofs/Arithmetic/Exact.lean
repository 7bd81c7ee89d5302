import Labyrinth.Proofs.Arithmetic.Integers
import Labyrinth.Proofs.Correctness
import Labyrinth.Proofs.Parsing.Nesting

/-!
# Exact arithmetic

The code of an expression of integers, minus signs and arithmetic operators puts the value that the
expression has in the integers onto the stack, if that value and those of its parts are integers of 64 bits
(`Expr.yields`). It takes one step for each part and room for `Expr.room` values, without which the stack
overflows (`Machine.Yields`). So a program that returns the expression gives its exact value
(`Source.integers_exact`).
-/

namespace Labyrinth

open Machine

namespace Expr

/-- The value of an expression in the integers; `none` if it divides by zero, or if it is not made of
integers, minus signs and arithmetic operators only. -/
def integer? : Expr → Option Int
  | int _ n => some n.toInt
  | unary _ .neg operand => (integer? operand).map (- ·)
  | binary _ op left right => do op.integer? (← integer? left) (← integer? right)
  | _ => none

/-- The values of an expression and of all that stand in it are integers of 64 bits. -/
def Fits (e : Expr) : Prop := ∀ d ∈ e.parts, ∀ n ∈ d.integer?, Fits64 n

instance (e : Expr) : Decidable e.Fits :=
  inferInstanceAs (Decidable (∀ d ∈ e.parts, ∀ n ∈ d.integer?, Fits64 n))

/-- How many values stand on the stack at once. -/
def room : Expr → Nat
  | binary _ _ left right => max (room left) (room right + 1)
  | unary _ _ operand => room operand
  | _ => 1

variable {e l r : Expr} {i : Location} {op : BinaryOp} {n : Int}

theorem room_pos : ∀ e : Expr, 0 < e.room
  | int _ _ | float _ _ _ | bool _ _ | var _ _ | call _ _ _ => Nat.one_pos
  | unary _ _ operand => room_pos operand
  | binary _ _ left _ => Nat.lt_of_lt_of_le (room_pos left) (Nat.le_max_left _ _)

theorem Fits.fits64 (h : e.Fits) (hn : e.integer? = some n) : Fits64 n := h e (mem_parts_self e) n hn

theorem Fits.operand {o : UnaryOp} (h : (unary i o e).Fits) : e.Fits :=
  fun d hd => h d (List.mem_cons_of_mem _ hd)

theorem Fits.left (h : (binary i op l r).Fits) : l.Fits :=
  fun d hd => h d (List.mem_cons_of_mem _ (List.mem_append_left _ hd))

theorem Fits.right (h : (binary i op l r).Fits) : r.Fits :=
  fun d hd => h d (List.mem_cons_of_mem _ (List.mem_append_right _ hd))

theorem integer?_neg_eq_some : (unary i .neg e).integer? = some n ↔ ∃ k, e.integer? = some k ∧ -k = n := by
  rw [integer?, Option.map_eq_some_iff]

theorem integer?_binary_eq_some : (binary i op l r).integer? = some n ↔
    ∃ j, l.integer? = some j ∧ ∃ k, r.integer? = some k ∧ op.integer? j k = some n := by
  simp only [integer?, Option.bind_eq_bind, Option.bind_eq_some_iff]

end Expr

theorem BinaryOp.typeOf_of_integer? {op : BinaryOp} {k l n : Int} (h : op.integer? k l = some n) :
    op.typeOf .int .int = .ok .int := by
  cases op <;> first | rfl | cases h

/-- An expression that has a value in the integers is in order wherever it stands, and its code has one
instruction for each of its parts. -/
theorem Expr.exists_coded_of_integer? (p : Program) (Γ : Context) : ∀ {e : Expr} {n : Int},
    e.integer? = some n → ∃ c, e.Coded p Γ .int c ∧ c.length = e.parts.length
  | .int _ _, _, _ => ⟨_, .int, rfl⟩
  | .unary _ .neg operand, n, h => by
    obtain ⟨k, hk, -⟩ := integer?_neg_eq_some.mp h
    obtain ⟨c, hc, hlen⟩ := exists_coded_of_integer? p Γ hk
    exact ⟨_, .unary hc rfl, by simp [parts, hlen]⟩
  | .binary _ op left right, n, h => by
    obtain ⟨j, hj, k, hk, hop⟩ := integer?_binary_eq_some.mp h
    obtain ⟨c, hc, hclen⟩ := exists_coded_of_integer? p Γ hj
    obtain ⟨d, hd, hdlen⟩ := exists_coded_of_integer? p Γ hk
    exact ⟨_, .binary hc hd (BinaryOp.typeOf_of_integer? hop), by simp [parts, hclen, hdlen, Nat.add_assoc]⟩
  | .unary _ .not _, _, h | .float _ _ _, _, h | .bool _ _, _, h | .var _ _, _, h | .call _ _ _, _, h => by
    cases h

theorem Expr.Coded.length_eq {p : Program} {Γ : Context} {e : Expr} {ty : Ty} {c : List Line} {n : Int}
    (h : e.Coded p Γ ty c) (hn : e.integer? = some n) : c.length = e.parts.length := by
  obtain ⟨d, hd, hlen⟩ := exists_coded_of_integer? p Γ hn
  have hcode : Line.code c = Line.code d := Except.ok.inj (h.code.symm.trans hd.code)
  rw [← Line.length_code, hcode, Line.length_code, hlen]

/-! ### Code that yields a value -/

/-- The state behind `n` instructions that put a value onto the stack. -/
def State.yielding (s : State) (n : Nat) (v : Value) : State :=
  { s with ip := s.ip + n, stack := s.stack.push v, steps := s.steps + n }

namespace Machine

/-- The stack overflows before `n` steps are taken. -/
def Overflows (m : Machine) (n : Nat) (s : State) : Prop :=
  ∃ k < n, ∃ t, m.Steps k s t ∧ m.Fails t (.stackOverflow m.maxStack)

/-- From the place `a` on, the machine puts `v` onto the stack in `n` steps if there is room for `r` values,
and else the stack overflows on the way. -/
structure Yields (m : Machine) (a n r : Nat) (v : Value) : Prop where
  steps : ∀ s : State, s.ip = a → s.stack.size + r ≤ m.maxStack → m.Steps n s (s.yielding n v)
  overflows : ∀ s : State, s.ip = a → m.maxStack < s.stack.size + r → m.Overflows n s

variable {m : Machine} {s t : State} {a n k r q : Nat} {x y v : Value}

theorem Overflows.mono (h : m.Overflows n s) (hn : n ≤ k) : m.Overflows k s := by
  obtain ⟨j, hj, t, ht, hf⟩ := h
  exact ⟨j, Nat.lt_of_lt_of_le hj hn, t, ht, hf⟩

theorem Overflows.after (h : m.Overflows n t) (hs : m.Steps k s t) : m.Overflows (k + n) s := by
  obtain ⟨j, hj, u, hu, hf⟩ := h
  exact ⟨k + j, Nat.add_lt_add_left hj k, u, hs.trans hu, hf⟩

theorem step_neg {S : List Value} (hs : s.stack.items = x :: S) (ip : Nat) :
    m.step ip s .neg = Next.state <$> m.push { s with stack := .ofItems S } x.neg := by
  rw [Machine.step, State.pop_eq hs]
  rfl

theorem Step.neg_yielding (ho : m.ops[s.ip + n]? = some .neg) (hroom : s.stack.size < m.maxStack) :
    m.Step (s.yielding n x) (s.yielding (n + 1) x.neg) := by
  refine ⟨_, ho, ?_⟩
  have hstack : Stack.ofItems s.stack.items = s.stack := Stack.ext rfl
  rw [take_eq, step_neg (S := s.stack.items) rfl, hstack, Machine.push, if_pos hroom]
  rfl

theorem Step.binary_yielding {op : BinaryOp} (ho : m.ops[s.ip + n + k]? = some (.binary op))
    (hv : op.eval? x y = some v) (hroom : s.stack.size < m.maxStack) :
    m.Step ((s.yielding n x).yielding k y) (s.yielding (n + k + 1) v) := by
  refine ⟨_, ho, ?_⟩
  have hstack : Stack.ofItems s.stack.items = s.stack := Stack.ext rfl
  rw [take_eq, step_binary (S := s.stack.items) rfl, hv, hstack, Option.elim, Machine.push, if_pos hroom]
  simp only [behind, State.yielding, Nat.add_assoc]
  rfl

namespace Yields

theorem push (ho : m.ops[a]? = some (.push v)) : m.Yields a 1 1 v where
  steps s hs hroom := by
    refine .single ⟨_, hs ▸ ho, ?_⟩
    rw [take_eq, Machine.step, behind, Machine.push, if_pos (Nat.lt_of_succ_le hroom)]
    rfl
  overflows s hs hfull := by
    refine ⟨0, Nat.one_pos, s, .refl s, _, hs ▸ ho, ?_⟩
    rw [take_eq, Machine.step, behind, Machine.push, if_neg (Nat.not_lt.mpr (Nat.le_of_lt_succ hfull))]
    rfl

/-- A minus sign takes the room that its operand leaves. -/
theorem neg (h : m.Yields a n r x) (hr : 0 < r) (ho : m.ops[a + n]? = some .neg) :
    m.Yields a (n + 1) r x.neg where
  steps s hs hroom := (h.steps s hs hroom).tail (.neg_yielding (hs ▸ ho) (by omega))
  overflows s hs hfull := (h.overflows s hs hfull).mono (Nat.le_succ n)

/-- The left operand stays on the stack while the right one is computed. -/
theorem binary {op : BinaryOp} (hx : m.Yields a n r x) (hy : m.Yields (a + n) k q y) (hr : 0 < r)
    (ho : m.ops[a + n + k]? = some (.binary op)) (hv : op.eval? x y = some v) :
    m.Yields a (n + k + 1) (max r (q + 1)) v where
  steps s hs hroom := by
    have hleft := hx.steps s hs (by omega)
    have hright := hy.steps (s.yielding n x) (congrArg (· + n) hs)
      (by simp only [State.yielding, Stack.push]; omega)
    exact (hleft.trans hright).tail (.binary_yielding (hs ▸ ho) hv (by omega))
  overflows s hs hfull := by
    by_cases hroom : s.stack.size + r ≤ m.maxStack
    · have hright := hy.overflows (s.yielding n x) (congrArg (· + n) hs)
        (by simp only [State.yielding, Stack.push]; omega)
      exact (hright.after (hx.steps s hs hroom)).mono (Nat.le_succ _)
    · exact (hx.overflows s hs (by omega)).mono (by omega)

end Yields

end Machine

variable {p : Program} {Γ : Context} {m : Machine} {code : Code}

/-- The code of an expression yields its value in the integers wherever it stands. -/
theorem Expr.yields (hm : m.ops = code.link) : ∀ {e : Expr} {ty : Ty} {c : List Line} {n : Int} {a : Nat},
    e.Coded p Γ ty c → e.integer? = some n → e.Fits → StandsAt code a (Line.code c) →
      m.Yields a c.length e.room (.int (.ofInt n))
  | .int _ k, _, _, n, a, .int, hn, _, hl => by
    obtain rfl : k.toInt = n := Option.some.inj hn
    rw [Int64.ofInt_toInt]
    exact .push (hm ▸ Code.getElem?_link_of_standsAt hl)
  | .unary _ .neg e, _, _, n, a, .unary (c := c) he _, hn, hfits, hl => by
    obtain ⟨k, hk, rfl⟩ := integer?_neg_eq_some.mp hn
    rw [Line.code_append] at hl
    have hop := Code.getElem?_link_of_standsAt hl.right
    rw [Line.length_code] at hop
    have hoperand := Expr.yields hm he hk hfits.operand hl.left
    rw [Int64.ofInt_neg, List.length_append]
    exact hoperand.neg (room_pos e) (hm ▸ hop)
  | .binary _ op left right, _, _, n, a, .binary (c := c) (d := d) hleft hright _, hn, hfits, hl => by
    obtain ⟨j, hj, k, hk, hop⟩ := integer?_binary_eq_some.mp hn
    rw [Line.code_append, Line.code_append] at hl
    have hat := Code.getElem?_link_of_standsAt hl.right
    have hstand := hl.left.right
    rw [List.length_append, Line.length_code, Line.length_code, ← Nat.add_assoc] at hat
    rw [Line.length_code] at hstand
    have hvalue : op.eval? (.int (.ofInt j)) (.int (.ofInt k)) = some (.int (.ofInt n)) := by
      refine BinaryOp.eval?_of_fits ?_ (hfits.fits64 hn)
      rwa [(hfits.left.fits64 hj).toInt_ofInt, (hfits.right.fits64 hk).toInt_ofInt]
    have hx := Expr.yields hm hleft hj hfits.left hl.left.left
    have hy := Expr.yields hm hright hk hfits.right hstand
    rw [List.length_append, List.length_append]
    exact hx.binary hy (room_pos left) (hm ▸ hat) hvalue
  | .unary _ .not _, _, _, _, _, _, hn, _, _ | .float _ _ _, _, _, _, _, _, hn, _, _
  | .bool _ _, _, _, _, _, _, hn, _, _ | .var _ _, _, _, _, _, _, hn, _, _
  | .call _ _ _, _, _, _, _, _, hn, _, _ => by cases hn

/-! ### Programs that give the value of an expression -/

/-- The program has a `main` that takes nothing and at once returns the value of `e`. -/
def Program.Gives (p : Program) (e : Expr) : Prop :=
  ∃ i j rest, .function ⟨i, .int, "main", [], .ret j (some e) :: rest⟩ ∈ p

/-- The code of the expression stands where a run starts, with a return behind it. -/
theorem Program.Coded.standsAt_main {ls : List Line} {e : Expr} (hp : p.Coded ls) (hgives : p.Gives e) :
    ∃ Γ ty c a, e.Coded p Γ ty c ∧ StandsAt (Line.code ls) a (Line.code c ++ [.ret]) ∧
      Code.entry? (Line.code ls) "main" = some a := by
  obtain ⟨i, j, rest, hmem⟩ := hgives
  obtain ⟨Δ, hf⟩ := exists_mem_functionsFrom .initial hmem
  obtain ⟨a, k, k', body, hcoded, hstands, hentry⟩ := hp.standsAt hf
  cases hcoded.body with
  | cons hs _ =>
    cases hs with
    | ret hret hvalue =>
      cases hret
      obtain ⟨he, -⟩ := hvalue
      refine ⟨_, _, _, a + 1, he, ?_, hentry⟩
      have hcode := hstands.left.right.left.map Line.instruction
      simpa [Line.widening, Ty.widens, Line.code] using hcode

/-- A program that only returns the value of an expression is in order. -/
theorem Source.checked_of_integer? {source : String} {i j : Location} {e : Expr} {n : Int}
    (hn : e.integer? = some n)
    (hp : program source = .ok [.function ⟨i, .int, "main", [], [.ret j (some e)]⟩]) :
    checked source = .ok [.function ⟨i, .int, "main", [], [.ret j (some e)]⟩] ∧
      ∃ code, compile source = .ok code := by
  choose ls hls using fun Γ => Expr.exists_coded_of_integer? [] Γ hn
  have htype (Γ : Context) : e.typeOf Γ = .ok .int := (hls Γ).1.typeOf
  have hcode (Γ : Context) : e.code Γ = .ok (Line.code (ls Γ)) := (hls Γ).1.code
  have hfresh : Context.initial.function? "main" = none := by decide
  have hcheck : Program.check [.function ⟨i, .int, "main", [], [.ret j (some e)]⟩] = .ok () := by
    simp [Program.check, Program.checkFrom, Decl.check, Function.check, hfresh, Context.enter,
      Context.declareParams, Stmt.checkAll, Stmt.check, Stmt.returnedType, htype, Stmt.mayReturn,
      Ty.accepts, Function.returns, Stmt.anyReturns, Stmt.returns, bind, Except.bind, pure, Except.pure]
  have hchecked : checked source = .ok [.function ⟨i, .int, "main", [], [.ret j (some e)]⟩] := by
    simp [checked, hp, hcheck, Except.mapError, bind, Except.bind, pure, Except.pure]
  refine ⟨hchecked, ?_⟩
  simp [compile, hchecked, Program.code, Program.codeFrom, Function.code, Context.enter,
    Context.declareParams, Stmt.codeAll, Stmt.code, Expr.codeInto, Expr.widen, hcode, Except.mapError, bind,
    Except.bind, pure, Except.pure]

/-- How a run ends that computes `e` and returns it: with the value, or at a limit. -/
theorem Code.run_of_yields {maze : Maze} {settings : Settings} {agent : Agent} {a n r : Nat} {v : Value}
    (hentry : code.entry? "main" = some a) (hagent : startAgent maze settings = .ok agent)
    (hop : code.link[a + n]? = some .ret)
    (h : ∀ m : Machine, m.ops = code.link → m.Yields a n r v) :
    if r ≤ settings.maxStack.toNat ∧ n < settings.maxSteps.toNat then
      ∃ o, code.run maze settings = .ok o ∧ o.result = some v
    else ∃ f, code.run maze settings = .error f ∧ f.IsLimit := by
  obtain ⟨⟨m, s₀⟩, hload⟩ : ∃ start, load code maze settings = .ok start := by
    simp only [load, hentry, hagent, bind, Except.bind]
    exact ⟨_, rfl⟩
  obtain ⟨-, -, hentry', hm, hstack, hframes, -⟩ := load_eq_ok hload
  obtain rfl : a = s₀.ip := Option.some.inj (hentry.symm.trans hentry')
  have hops : m.ops = code.link := by rw [hm]
  have hmax : m.maxStack = settings.maxStack.toNat := by rw [hm]
  have hmost : m.maxSteps = settings.maxSteps.toNat := by rw [hm]
  have hsize : s₀.stack.size = 0 := by rw [hstack]; rfl
  rw [← hmax, ← hmost]
  by_cases hroom : r ≤ m.maxStack
  · have hsteps := (h m hops).steps s₀ rfl (by omega)
    have hret : m.ops[(s₀.yielding n v).ip]? = some .ret := hops ▸ hop
    have hat : (s₀.yielding n v).At (s₀.ip + n) [v] .empty s₀.toWorld :=
      ⟨rfl, by rw [State.yielding, hstack]; rfl, hframes, rfl⟩
    have hrun := run_eq_of_load hload
    rw [runFrom_of_halts hsteps hret (.ret hat hret)] at hrun
    by_cases hlt : n < m.maxSteps
    · rw [if_pos ⟨hroom, hlt⟩]
      exact ⟨_, by rw [hrun, if_pos hlt]; rfl, rfl⟩
    · rw [if_neg fun h => hlt h.2]
      exact ⟨.stepsExceeded m.maxSteps, by rw [hrun, if_neg hlt]; rfl, trivial⟩
  · rw [if_neg fun h => hroom h.1]
    obtain ⟨k, -, t, hsteps, hfails⟩ := (h m hops).overflows s₀ rfl (by omega)
    obtain ⟨f, hf, hlimit | rfl⟩ := run_of_fails hload hsteps hfails
    · exact ⟨f, hf, hlimit⟩
    · exact ⟨_, hf, trivial⟩

namespace Source

variable {source : String} {maze : Maze} {settings : Settings} {agent : Agent} {e : Expr} {n : Int}

theorem run_of_gives (hp : checked source = .ok p) (hgives : p.Gives e) (hc : compile source = .ok code)
    (hn : e.integer? = some n) (hfits : e.Fits) (hagent : startAgent maze settings = .ok agent) :
    if e.room ≤ settings.maxStack.toNat ∧ e.parts.length < settings.maxSteps.toNat then
      ∃ o, run source maze settings = .ok o ∧ o.result = some (.int (.ofInt n))
    else ∃ f, run source maze settings = .error (.fault f) ∧ f.IsLimit := by
  have hrun : run source maze settings = (code.run maze settings).mapError .fault := by
    rw [run, hc]; rfl
  obtain ⟨ls, hls, rfl⟩ := exists_coded hp hc
  obtain ⟨Γ, ty, c, a, he, hl, hentry⟩ := hls.standsAt_main hgives
  have hop := Code.getElem?_link_of_standsAt hl.right
  rw [Line.length_code, he.length_eq hn] at hop
  have hans := Code.run_of_yields hentry hagent hop fun m hm =>
    he.length_eq hn ▸ Expr.yields hm he hn hfits hl.left
  rw [hrun]
  split at hans
  next hlimits =>
    obtain ⟨o, ho, hresult⟩ := hans
    rw [if_pos hlimits]
    exact ⟨o, by rw [ho]; rfl, hresult⟩
  next hlimits =>
    obtain ⟨f, hf, hlimit⟩ := hans
    rw [if_neg hlimits]
    exact ⟨f, by rw [hf]; rfl, hlimit⟩

/-- The operators on every two integers of 64 bits, as `BinaryOp.Computes` has them, which is what the
machine does with the two on its stack; and the code of an expression of integers, minus signs and
arithmetic operators puts its exact value onto the stack, wherever it stands, if that value and those of
its parts are integers of 64 bits and none of them is divided by zero. Of a program that returns the
expression this is the result, unless the run is not given the steps or the room that it needs. -/
theorem integers_exact :
    (∀ x y : Int64, BinaryOp.Computes x y ∧
      ∀ (m : Machine) (s : State) (ip : Nat) (S : List Value) (op : BinaryOp),
        s.stack.items = .int y :: .int x :: S → s.stack.size ≤ m.maxStack →
        m.step ip s (.binary op) = (op.eval? (.int x) (.int y)).elim (.error (.divisionByZero ip))
          fun v => .ok (.state { s with stack := (Stack.ofItems S).push v })) ∧
    ∀ (e : Expr) (n : Int), e.integer? = some n → e.Fits →
      (Int64.ofInt n).toInt = n ∧
      (∀ Γ, e.typeOf Γ = .ok .int ∧ ∃ c, e.code Γ = .ok c ∧
        ∀ (m : Machine) (code : Code) (a : Nat), m.ops = code.link → StandsAt code a c →
          m.Yields a e.parts.length e.room (.int (.ofInt n))) ∧
      (∀ source i j, program source = .ok [.function ⟨i, .int, "main", [], [.ret j (some e)]⟩] →
        checked source = .ok [.function ⟨i, .int, "main", [], [.ret j (some e)]⟩] ∧
          ∃ code, compile source = .ok code) ∧
      ∀ source p code, checked source = .ok p → p.Gives e → compile source = .ok code →
        ∀ maze settings agent, startAgent maze settings = .ok agent →
          if e.room ≤ settings.maxStack.toNat ∧ e.parts.length < settings.maxSteps.toNat then
            ∃ o, run source maze settings = .ok o ∧ o.result = some (.int (.ofInt n))
          else ∃ f, run source maze settings = .error (.fault f) ∧ f.IsLimit := by
  refine ⟨fun x y => ⟨BinaryOp.computes x y, fun m s ip S op hs hsize => ?_⟩, fun e n hn hfits =>
    ⟨(hfits.fits64 hn).toInt_ofInt, fun Γ => ?_, fun source i j => checked_of_integer? hn, ?_⟩⟩
  · rw [step_binary hs]
    cases hv : op.eval? (.int x) (.int y) with
    | none => rfl
    | some v =>
      have hroom : (Stack.ofItems S).size < m.maxStack := by
        rw [s.stack.size_eq, hs, List.length_cons, List.length_cons] at hsize
        show S.length < m.maxStack
        omega
      rw [Option.elim, Option.elim, Machine.push, if_pos hroom]
      rfl
  · obtain ⟨c, hc, hlen⟩ := Expr.exists_coded_of_integer? [] Γ hn
    refine ⟨hc.typeOf, _, hc.code, fun m code a hm hl => ?_⟩
    rw [← hlen]
    exact Expr.yields hm hc hn hfits hl
  · intro source p code hp hgives hc maze settings agent hagent
    exact run_of_gives hp hgives hc hn hfits hagent

/-- A text whose quotient is cut off toward zero and whose remainder is negative. -/
def rounding : String :=
  "func int main() { return -7 / 2 * 3 % 4; }"

/-- The expression whose value a program only returns. -/
def returned? : Program → Option Expr
  | [.function ⟨_, .int, "main", [], [.ret _ (some e)]⟩] => some e
  | _ => none

theorem returned?_eq_some (h : returned? p = some e) :
    ∃ i j, p = [.function ⟨i, .int, "main", [], [.ret j (some e)]⟩] := by
  unfold returned? at h
  split at h <;> cases h
  exact ⟨_, _, rfl⟩

theorem integers_exact_limits :
    (∃ q r : Int64, BinaryOp.div.eval? (.int Int64.minValue) (.int (-1)) = some (.int q) ∧
      BinaryOp.mod.eval? (.int Int64.minValue) (.int (-1)) = some (.int r) ∧
      q.toInt = -2 ^ 63 ∧ r.toInt = 0) ∧
    (∃ (m : Machine) (s : State), s.stack.items = [.int 0, .int 1] ∧
      m.step 7 s (.binary .mod) = .error (.divisionByZero 7)) ∧
    ∃ (e : Expr) (o : Outcome), e.integer? = some (-1) ∧ e.Fits ∧ run rounding .sample {} = .ok o ∧
      o.result = some (.int (-1)) := by
  obtain ⟨agent, hagent⟩ := Except.isSome_toOption (x := startAgent .sample {}) (by decide)
  obtain ⟨p, hp, h⟩ := Except.any_toOption (x := program rounding) (q := fun p =>
    (returned? p).any fun e => e.integer? = some (-1) ∧ e.Fits ∧
      e.room ≤ ({} : Settings).maxStack.toNat ∧ e.parts.length < ({} : Settings).maxSteps.toNat)
    (by decide +kernel)
  obtain ⟨e, he, h⟩ := (Option.any_eq_true _ _).mp h
  obtain ⟨hn, hfits, hlimits⟩ := of_decide_eq_true h
  obtain ⟨i, j, rfl⟩ := returned?_eq_some he
  refine ⟨?_, ?_, ?_⟩
  · obtain ⟨q, r, hq, hr, hquot, hrem, -⟩ := (integers_exact.1 Int64.minValue (-1)).1.divided (by decide)
    exact ⟨q, r, hq, hr, hquot.trans (by decide), hrem.trans (by decide)⟩
  · refine ⟨⟨#[], 0, 2⟩, ⟨⟨.empty, .sample, agent, #[], ""⟩, 7, .ofItems [.int 0, .int 1], .empty, 0⟩, rfl, ?_⟩
    exact (integers_exact.1 1 0).2 _ _ 7 [] .mod rfl (Nat.le_refl 2)
  · obtain ⟨-, -, hcompile, hrun⟩ := integers_exact.2 e (-1) hn hfits
    obtain ⟨hchecked, code, hc⟩ := hcompile rounding i j hp
    have hgives : Program.Gives [.function ⟨i, .int, "main", [], [.ret j (some e)]⟩] e :=
      ⟨i, j, [], List.mem_singleton_self _⟩
    have hans := hrun rounding _ code hchecked hgives hc .sample {} agent hagent
    obtain ⟨o, ho, hresult⟩ := (if_pos hlimits).mp hans
    exact ⟨e, o, hn, hfits, ho, hresult⟩

end Source

end Labyrinth
