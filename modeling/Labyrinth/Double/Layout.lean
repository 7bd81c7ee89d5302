import Labyrinth.Double.Shortest

/-!
# The text of a double

A `Layout` holds the decisions of a text form: which numbers are written positionally, how an
exponent is marked, and how the values that are no numbers are spelled. `listing` is the form of
listings, messages and program output, `json` the form inside JSON documents.
-/

namespace Labyrinth

/-- The decisions of a text form of doubles. A whole number that is written positionally has `.0`
behind it. -/
structure Layout where
  /-- A number whose leading digit stands for `10 ^ e` is positional for `plainFrom ≤ e`. -/
  plainFrom : Int
  /-- A number whose leading digit stands for `10 ^ e` is positional for `e < plainBelow`. -/
  plainBelow : Int
  /-- Whether a positive exponent has a plus sign. -/
  plusSign : Bool
  tie : Tie
  nan : String
  infinity : String
  negativeInfinity : String

namespace Layout

/-- A number is positional from a ten-thousandth up to below `10 ^ 16`. -/
def listing : Layout where
  plainFrom := -4
  plainBelow := 16
  plusSign := false
  tie := .up
  nan := "NaN"
  infinity := "inf"
  negativeInfinity := "-inf"

/-- A number is positional from a hundred-thousandth up to below `10 ^ 16`; JSON has no numeral for
the other values. -/
def json : Layout where
  plainFrom := -5
  plainBelow := 16
  plusSign := true
  tie := .toEven
  nan := "null"
  infinity := "null"
  negativeInfinity := "null"

/-- Digits with a point behind the first `whole` of them. -/
def positional (digits : String) (whole : Int) : String :=
  let count : Int := digits.length
  if whole ≤ 0 then "0." ++ String.ofList (List.replicate (-whole).toNat '0') ++ digits
  else if count ≤ whole then
    digits ++ String.ofList (List.replicate (whole - count).toNat '0') ++ ".0"
  else
    String.ofList (digits.toList.take whole.toNat) ++ "." ++
      String.ofList (digits.toList.drop whole.toNat)

/-- One digit, a point if more digits follow, and the exponent of the first digit. -/
def scientific (layout : Layout) (digits : String) (e : Int) : String :=
  let rest := digits.toList.drop 1
  let mantissa := String.ofList (digits.toList.take 1) ++
    if rest.isEmpty then "" else "." ++ String.ofList rest
  mantissa ++ "e" ++ (if layout.plusSign && 0 < e then "+" else "") ++ toString e

/-- The text of a positive decimal. -/
def decimal (layout : Layout) (d : Decimal) : String :=
  let digits := toString d.digits
  let leading := d.exponent + digits.length - 1
  if layout.plainFrom ≤ leading ∧ leading < layout.plainBelow then positional digits (leading + 1)
  else layout.scientific digits leading

def render (layout : Layout) (x : Float) : String :=
  if x.isNaN then layout.nan
  else if x.isInf then if Double.isNegative x then layout.negativeInfinity else layout.infinity
  else
    let magnitude := Binary.ofBits x.toBits
    let text :=
      if magnitude.mantissa = 0 then "0.0" else layout.decimal (magnitude.shortest layout.tie)
    if Double.isNegative x then "-" ++ text else text

end Layout

end Labyrinth
