/-!
# Doubles as integers times powers of two

`Binary` is the magnitude of a finite double, `mantissa * 2 ^ exponent`. `Double.rem` is the
remainder of a division whose quotient is cut off toward zero; it is exact.
-/

namespace Labyrinth

/-- The magnitude of a finite double, as `mantissa * 2 ^ exponent`. -/
structure Binary where
  mantissa : Nat
  exponent : Int
  /-- Whether the double below is only half as far away as the double above. -/
  narrowBelow : Bool
deriving DecidableEq, Repr

namespace Binary

/-- The bit in front of the 52 bits of a normal double's fraction. -/
def leadingBit : Nat :=
  1 <<< 52

/-- Reads the bits of a finite double. -/
def ofBits (bits : UInt64) : Binary :=
  let biased : Nat := (bits.toNat >>> 52) % 2048
  let fraction : Nat := bits.toNat % leadingBit
  if biased = 0 then ⟨fraction, -1074, false⟩
  else ⟨leadingBit + fraction, (biased : Int) - 1075, fraction = 0 && 1 < biased⟩

/-- The double of magnitude `m * 2 ^ e`, for a value that is one: `m < 2 ^ 53` and `-1074 ≤ e`. -/
def toFloat (m : Nat) (e : Int) : Float :=
  let shift := min (52 - m.log2) (e + 1074).toNat
  let mantissa := m <<< shift
  let biased := (e - shift + 1075).toNat
  if mantissa < leadingBit then Float.ofBits mantissa.toUInt64
  else Float.ofBits ((biased <<< 52) + (mantissa - leadingBit)).toUInt64

end Binary

namespace Double

def isNegative (x : Float) : Bool :=
  1 <<< 63 ≤ x.toBits.toNat

/-- The remainder of `x / y` cut off toward zero: it has the sign of `x`. There is none for an
infinite `x` or a zero `y`, and an infinite `y` leaves `x` as it is. -/
def rem (x y : Float) : Float :=
  if x.isNaN || y.isNaN || x.isInf || y == 0.0 then 0.0 / 0.0
  else if y.isInf then x
  else
    let a := Binary.ofBits x.toBits
    let b := Binary.ofBits y.toBits
    let e := min a.exponent b.exponent
    let r := (a.mantissa <<< (a.exponent - e).toNat) % (b.mantissa <<< (b.exponent - e).toNat)
    let magnitude := Binary.toFloat r e
    if isNegative x then -magnitude else magnitude

/-- The double nearest to an integer. -/
def ofInt64 (n : Int64) : Float :=
  Float.ofInt n.toInt

end Double

end Labyrinth
