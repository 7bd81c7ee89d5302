/-!
# Reading whole numbers

A numeral is a run of decimal digits, and a sign may stand in front of it. `natural?` and
`integer?` read a whole text and refuse anything else.
-/

namespace Labyrinth.Text

/-- The value of a decimal digit. -/
def digitValue (c : Char) : Nat :=
  c.toNat - '0'.toNat

/-- The number that a run of decimal digits stands for. -/
def digitsValue (cs : List Char) : Nat :=
  cs.foldl (fun n c => 10 * n + digitValue c) 0

/-- A text of at least one digit and nothing else. -/
def unsigned? (cs : List Char) : Option Nat :=
  if !cs.isEmpty && cs.all Char.isDigit then some (digitsValue cs) else none

/-- A natural number, with or without a plus sign. -/
def natural? : List Char → Option Nat
  | '+' :: cs => unsigned? cs
  | cs => unsigned? cs

/-- An integer, with or without a sign. -/
def integer? : List Char → Option Int
  | '-' :: cs => (unsigned? cs).map fun n => -(n : Int)
  | cs => (natural? cs).map Int.ofNat

/-- An integer of 64 bits. -/
def int64? (cs : List Char) : Option Int64 :=
  (integer? cs).bind fun n =>
    if Int64.minValue.toInt ≤ n ∧ n ≤ Int64.maxValue.toInt then some (Int64.ofInt n) else none

/-- A natural number below `2 ^ 64`. -/
def word64? (cs : List Char) : Option Nat :=
  (natural? cs).filter (· < UInt64.size)

end Labyrinth.Text
