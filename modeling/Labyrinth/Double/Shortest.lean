import Labyrinth.Double.Binary

/-!
# The shortest decimal of a double

`Binary.shortest` is the decimal with the fewest digits that reads back as the double, and of
those the one nearest to it. `Binary.readsBack` is the test: a decimal reads back if it lies
between the midpoints to the two neighbouring doubles, the midpoints themselves included exactly
when the mantissa is even.
-/

namespace Labyrinth

/-- `digits * 10 ^ exponent`. -/
structure Decimal where
  digits : Nat
  exponent : Int
deriving DecidableEq, Repr

/-- Which of two equally near decimals is taken. -/
inductive Tie where
  | toEven
  | up
deriving DecidableEq, Repr

namespace Decimal

/-- Compares the decimal with `n * 2 ^ e`. -/
def compareBinary (d : Decimal) (n : Nat) (e : Int) : Ordering :=
  compare ((d.digits * Nat.pow 10 d.exponent.toNat) <<< (-e).toNat)
    ((n * Nat.pow 10 (-d.exponent).toNat) <<< e.toNat)

/-- The same value without trailing zeros among the digits. -/
def stripZeros (d : Decimal) : Decimal :=
  go d.digits d.digits d.exponent
where
  go : Nat → Nat → Int → Decimal
    | 0, digits, e => ⟨digits, e⟩
    | fuel + 1, digits, e =>
      if digits % 10 = 0 ∧ digits ≠ 0 then go fuel (digits / 10) (e + 1) else ⟨digits, e⟩

end Decimal

/-- The number of digits of the decimal numeral of `n`. -/
def digitCount (n : Nat) : Nat :=
  (Nat.toDigits 10 n).length

namespace Binary

def numerator (x : Binary) : Nat :=
  x.mantissa <<< x.exponent.toNat

def denominator (x : Binary) : Nat :=
  1 <<< (-x.exponent).toNat

/-- The least `k` with `x < 10 ^ k`, for an `x` that is not zero. -/
def scale (x : Binary) : Int :=
  if x.denominator ≤ x.numerator then digitCount (x.numerator / x.denominator)
  else 1 - (digitCount ((x.denominator - 1) / x.numerator) : Int)

/-- Whether `x` is the double nearest to `d`. -/
def readsBack (x : Binary) (d : Decimal) : Bool :=
  let low := d.compareBinary (4 * x.mantissa - if x.narrowBelow then 1 else 2) (x.exponent - 2)
  let high := d.compareBinary (4 * x.mantissa + 2) (x.exponent - 2)
  let even := x.mantissa % 2 = 0
  (low = .gt || even && low = .eq) && (high = .lt || even && high = .eq)

/-- Of the two multiples of `10 ^ e` around `x`, the nearest that reads back. -/
def nearestOn (x : Binary) (tie : Tie) (e : Int) : Option Decimal :=
  let below := x.numerator * Nat.pow 10 (-e).toNat / (x.denominator * Nat.pow 10 e.toNat)
  let lower : Decimal := ⟨below, e⟩
  let upper : Decimal := ⟨below + 1, e⟩
  match x.readsBack lower, x.readsBack upper with
  | false, false => none
  | true, false => some lower
  | false, true => some upper
  | true, true =>
    match Decimal.compareBinary ⟨2 * below + 1, e⟩ (2 * x.mantissa) x.exponent, tie with
    | .gt, _ => some lower
    | .lt, _ => some upper
    | .eq, .up => some upper
    | .eq, .toEven => some (if below % 2 = 0 then lower else upper)

/-- The shortest decimal of a double that is not zero. Seventeen digits always suffice; the exact
value stands in for the case that they would not. -/
def shortest (x : Binary) (tie : Tie) : Decimal :=
  let found := (List.range 17).findSome? fun n => x.nearestOn tie (x.scale - (n + 1 : Nat))
  let exact : Decimal := ⟨x.numerator * Nat.pow 5 (-x.exponent).toNat, min 0 x.exponent⟩
  (found.getD exact).stripZeros

end Binary

end Labyrinth
