import Laconic.Number.Binary

/-!
# Shortest decimal digits of a double

Of all decimal numerals that read back as a given double, the ones with the
fewest digits are wanted, and of those the one nearest to the double, the
larger one of two equally near.

A numeral reads back as `m * 2 ^ q` when it lies between the midpoints to the
two neighbouring doubles, the ends included when `m` is even.  For one digit,
two digits and so on up to seventeen, only the two points of that decimal
grid around the value need to be tried.
-/

namespace Laconic.Number

/-- `digits` written after a decimal point that stands `point` places to
their right: the value `0.digits * 10 ^ point`. -/
structure Decimal where
  digits : Nat
  point : Int
deriving DecidableEq, Repr

/-- Number of decimal digits of a whole number, at least one. -/
def digitCount (n : Nat) : Nat := (Nat.toDigits 10 n).length

def decimalExponent (num den : Nat) : Int :=
  if den ≤ num then digitCount (num / den) - 1
  else -(digitCount ((den + num - 1) / num - 1) : Int)

/-- Ten to the power `e`, as numerator and denominator. -/
def powTen : Int → Nat × Nat
  | .ofNat k => (tenPow k, 1)
  | .negSucc k => (1, tenPow (k + 1))

/-- The doubles around `m * 2 ^ q` as three points of a grid of quarter
steps: the lower midpoint, the value and the upper midpoint.  Below a power
of two the neighbour is only half as far away. -/
def quarters (m : Nat) (q : Int) : Nat × Nat × Nat :=
  let below := if m = twoPow 52 ∧ minExponent < q then 1 else 2
  (4 * m - below, 4 * m, 4 * m + 2)

/-- The nearest point of the grid of `count` digits that reads back as
`m * 2 ^ q`, if there is one; the upper one of two equally near. -/
def decimalOfLength? (m : Nat) (q : Int) (count : Nat) : Option Decimal :=
  let (low, value, high) := quarters m q
  let (unit, whole) := scaleTwo 1 1 (q - 2)
  let leading := decimalExponent (value * unit) whole
  let (gridNum, gridDen) := powTen (leading + 1 - count)
  let scale (n : Nat) : Nat := n * unit * gridDen
  let step := whole * gridNum
  let reads (c : Nat) : Bool :=
    if m % 2 = 0 then scale low ≤ c * step && c * step ≤ scale high
    else scale low < c * step && c * step < scale high
  let floor := scale value / step
  let nearer :=
    if 2 * (scale value % step) < step then [floor, floor + 1] else [floor + 1, floor]
  (nearer.find? reads).map fun c =>
    if c = tenPow count then ⟨1, leading + 2⟩ else ⟨c, leading + 1⟩

/-- The shortest decimal that reads back as the positive double
`m * 2 ^ q`, and of these the nearest, the larger one of two. -/
def shortestDecimal (m : Nat) (q : Int) : Decimal :=
  ((List.range 17).findSome? fun i => decimalOfLength? m q (i + 1)).getD ⟨0, 0⟩

/-- The shortest decimal that reads back as the size of a finite double. -/
def shortest (x : Float) : Decimal :=
  let b := toBinary x
  shortestDecimal b.mantissa b.exponent

end Laconic.Number
