import Labyrinth.Program
import Labyrinth.Json.Basic

/-!
# Values and operators

A value is an integer of 64 bits or a double; a truth value is one of the integers 0 and 1.
Integers wrap around, and a float among the operands of an arithmetic or comparing operator makes
both of them floats.
-/

namespace Labyrinth

inductive Value where
  | int (n : Int64)
  | float (x : Float)

namespace Value

def ofBool (b : Bool) : Value :=
  int (if b then 1 else 0)

/-- Every value is true but zero. -/
def truthy : Value → Bool
  | int n => n ≠ 0
  | float x => x != 0.0

def toFloat : Value → Float
  | int n => Double.ofInt64 n
  | float x => x

/-- The text that is printed for a value. -/
def text : Value → String
  | int n => toString n.toInt
  | float x => Layout.listing.render x

def toJson : Value → Json
  | int n => .int n.toInt
  | float x => .float x

def neg : Value → Value
  | int n => int (-n)
  | float x => float (-x)

def not (v : Value) : Value :=
  ofBool (!v.truthy)

end Value

namespace BinaryOp

/-- An operator on integers; `none` is a division by zero. A quotient is cut off toward zero, and a
remainder has the sign of the dividend. -/
def onInts? (op : BinaryOp) (m n : Int64) : Option Value :=
  match op with
  | add => some (.int (m + n))
  | sub => some (.int (m - n))
  | mul => some (.int (m * n))
  | div => if n = 0 then none else some (.int (m / n))
  | mod => if n = 0 then none else some (.int (m % n))
  | eq => some (.ofBool (m = n))
  | ne => some (.ofBool (m ≠ n))
  | lt => some (.ofBool (m < n))
  | le => some (.ofBool (m ≤ n))
  | gt => some (.ofBool (n < m))
  | ge => some (.ofBool (n ≤ m))
  | and => some (.ofBool (m ≠ 0 && n ≠ 0))
  | or => some (.ofBool (m ≠ 0 || n ≠ 0))

/-- An operator on floats; `none` is a division by zero. NaN differs from every float and is neither
less nor greater. -/
def onFloats? (op : BinaryOp) (x y : Float) : Option Value :=
  match op with
  | add => some (.float (x + y))
  | sub => some (.float (x - y))
  | mul => some (.float (x * y))
  | div => if y == 0.0 then none else some (.float (x / y))
  | mod => if y == 0.0 then none else some (.float (Double.rem x y))
  | eq => some (.ofBool (x == y))
  | ne => some (.ofBool (x != y))
  | lt => some (.ofBool (x < y))
  | le => some (.ofBool (x ≤ y))
  | gt => some (.ofBool (y < x))
  | ge => some (.ofBool (y ≤ x))
  | and => some (.ofBool (x != 0.0 && y != 0.0))
  | or => some (.ofBool (x != 0.0 || y != 0.0))

/-- The value of an operator; `none` is a division by zero. -/
def eval? (op : BinaryOp) (a b : Value) : Option Value :=
  match op, a, b with
  | and, a, b => some (.ofBool (a.truthy && b.truthy))
  | or, a, b => some (.ofBool (a.truthy || b.truthy))
  | op, .int m, .int n => op.onInts? m n
  | op, a, b => op.onFloats? a.toFloat b.toFloat

end BinaryOp

end Labyrinth
