import Labyrinth.Text.Numeral

/-!
# Reading doubles

A numeral is a sign, digits, a point among or beside them, and a power of ten, of which only one
digit has to be there; infinity and NaN are spelled as words in letters of either case. The value
is the double nearest to the number that is written.
-/

namespace Labyrinth.Double

/-- The double nearest to `digits * 10 ^ e`. A number beyond `10 ^ 400` is infinite and one below
`10 ^ -400` is zero, so no larger power is ever computed. -/
def ofScientific (digits : Nat) (e : Int) : Float :=
  let leading := e + (Nat.toDigits 10 digits).length
  if digits = 0 ∨ leading < -400 then 0.0
  else if 400 < leading then 1.0 / 0.0
  else Float.ofScientific digits (e < 0) e.natAbs

/-- The power of ten at the end of a numeral: nothing, or a mark and an integer. -/
def power? : List Char → Option Int
  | [] => some 0
  | c :: cs => if c = 'e' ∨ c = 'E' then Text.integer? cs else none

/-- A numeral without sign. -/
def unsigned? (cs : List Char) : Option Float :=
  let whole := cs.takeWhile Char.isDigit
  let afterWhole := cs.dropWhile Char.isDigit
  let (fraction, rest) := match afterWhole with
    | '.' :: more => (more.takeWhile Char.isDigit, more.dropWhile Char.isDigit)
    | _ => ([], afterWhole)
  if whole.isEmpty && fraction.isEmpty then none
  else (power? rest).map fun e =>
    ofScientific (Text.digitsValue (whole ++ fraction)) (e - fraction.length)

/-- A word for a value that is no number, without sign. -/
def word? (cs : List Char) : Option Float :=
  match String.ofList (cs.map Char.toLower) with
  | "inf" | "infinity" => some (1.0 / 0.0)
  | "nan" => some (0.0 / 0.0)
  | _ => none

/-- A numeral without sign, or a word. -/
def magnitude? (cs : List Char) : Option Float :=
  (unsigned? cs).orElse fun _ => word? cs

/-- Reads a double. -/
def ofChars? : List Char → Option Float
  | '-' :: cs => (magnitude? cs).map (- ·)
  | '+' :: cs => magnitude? cs
  | cs => magnitude? cs

end Labyrinth.Double
