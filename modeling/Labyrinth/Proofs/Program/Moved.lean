import Labyrinth.Source

/-!
# Programs at other places

`Program.move place p` is the program `p` with every node at another place, as `place` has it. Nothing else
changes, and the same can be done to tokens and to the errors of the scan and of the parser.
-/

namespace Labyrinth

/-- The place so many lines further down. -/
def Location.lower (lines : Nat) (loc : Location) : Location := ⟨loc.line + lines, loc.column⟩

section

variable (place : Location → Location)

def Lexeme.move (l : Lexeme) : Lexeme := { l with loc := place l.loc }

def LexicalError.move (e : LexicalError) : LexicalError := { e with loc := place e.loc }

def SyntaxError.move (e : SyntaxError) : SyntaxError := { e with loc := place e.loc }

namespace Expr

mutual

def move : Expr → Expr
  | int loc value => int (place loc) value
  | float loc raw value => float (place loc) raw value
  | bool loc value => bool (place loc) value
  | var loc name => var (place loc) name
  | binary loc op left right => binary (place loc) op (move left) (move right)
  | unary loc op operand => unary (place loc) op (move operand)
  | call loc name args => call (place loc) name (moveAll args)

def moveAll : List Expr → List Expr
  | [] => []
  | e :: es => move e :: moveAll es

end

end Expr

namespace Stmt

mutual

def move : Stmt → Stmt
  | declare loc ty name init => declare (place loc) ty name (init.move place)
  | assign loc name value => assign (place loc) name (value.move place)
  | cond loc test body => cond (place loc) (test.move place) (moveAll body)
  | loop loc test body => loop (place loc) (test.move place) (moveAll body)
  | ret loc value => ret (place loc) (value.map (Expr.move place))
  | eval value => eval (value.move place)
  | block loc body => block (place loc) (moveAll body)

def moveAll : List Stmt → List Stmt
  | [] => []
  | s :: ss => move s :: moveAll ss

end

end Stmt

def Param.move (x : Param) : Param := { x with loc := place x.loc }

def Function.move (f : Function) : Function :=
  { f with
    loc := place f.loc
    params := f.params.map (Param.move place)
    body := Stmt.moveAll place f.body }

def Decl.move : Decl → Decl
  | .function f => .function (f.move place)
  | .stmt s => .stmt (s.move place)

def Program.move (p : Program) : Program := p.map (Decl.move place)

end

/-- The same report about a place so many lines further down, if it names a line. -/
def Report.lower (lines : Nat) (r : Report) : Report :=
  { r with diagnostic := { r.diagnostic with line := r.diagnostic.line.map (· + lines) } }

/-! ### Parts -/

variable {place : Location → Location}

theorem Expr.moveAll_eq_map (es : List Expr) : moveAll place es = es.map (move place) := by
  induction es with
  | nil => rfl
  | cons e es ih => rw [moveAll, List.map_cons, ih]

theorem Stmt.moveAll_eq_map (ss : List Stmt) : moveAll place ss = ss.map (move place) := by
  induction ss with
  | nil => rfl
  | cons s ss ih => rw [moveAll, List.map_cons, ih]

theorem Expr.loc_move (e : Expr) : (e.move place).loc = place e.loc := by
  cases e <;> rfl

theorem Expr.move_relocate (i : Location) (e : Expr) :
    (e.relocate i).move place = (e.move place).relocate (place i) := by
  cases e <;> rfl

/-! ### Places that stay -/

mutual

theorem Expr.move_id : ∀ e : Expr, e.move id = e
  | int _ _ | float _ _ _ | bool _ _ | var _ _ => rfl
  | binary _ _ left right => by rw [move, left.move_id, right.move_id, id]
  | unary _ _ operand => by rw [move, operand.move_id, id]
  | call _ _ args => by rw [move, Expr.moveAll_id args, id]

theorem Expr.moveAll_id : ∀ es : List Expr, moveAll id es = es
  | [] => rfl
  | e :: es => by rw [moveAll, e.move_id, Expr.moveAll_id es]

end

mutual

theorem Stmt.move_id : ∀ s : Stmt, s.move id = s
  | declare _ _ _ init => by rw [move, init.move_id, id]
  | assign _ _ value => by rw [move, value.move_id, id]
  | cond _ test body | loop _ test body => by rw [move, test.move_id, Stmt.moveAll_id body, id]
  | ret _ none => rfl
  | ret _ (some value) => by rw [move, Option.map_some, value.move_id, id]
  | eval value => by rw [move, value.move_id]
  | block _ body => by rw [move, Stmt.moveAll_id body, id]

theorem Stmt.moveAll_id : ∀ ss : List Stmt, moveAll id ss = ss
  | [] => rfl
  | s :: ss => by rw [moveAll, s.move_id, Stmt.moveAll_id ss]

end

theorem Decl.move_id : ∀ d : Decl, d.move id = d
  | .function f => by
    have hparams : f.params.map (Param.move id) = f.params := List.map_id f.params
    rw [move, Function.move, hparams, Stmt.moveAll_id, id]
  | .stmt s => by rw [move, s.move_id]

end Labyrinth
