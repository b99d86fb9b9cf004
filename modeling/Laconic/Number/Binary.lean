import Laconic.Number.Power

/-!
# Doubles as exact binary fractions

A finite double is a whole number of 53 bits times a power of two.  This
module takes a double apart into that form and goes back: `nearest` gives
the double closest to a quotient of two whole numbers, the even one of two
equally close, in exact arithmetic.
-/

namespace Laconic.Number

/-- A sign, a whole number and a power of two. -/
structure Binary where
  negative : Bool
  mantissa : Nat
  exponent : Int
deriving DecidableEq, Repr

def infinityBits : Nat := 0x7FF0000000000000

/-- The smallest exponent of a double. -/
def minExponent : Int := -1074

def signBit (x : Float) : Bool := x.toBits.toNat / twoPow 63 == 1

/-- The exact value of a finite double. -/
def toBinary (x : Float) : Binary :=
  let bits := x.toBits.toNat
  let fraction := bits % twoPow 52
  let biased : Nat := bits / twoPow 52 % twoPow 11
  if biased = 0 then ⟨signBit x, fraction, minExponent⟩
  else ⟨signBit x, twoPow 52 + fraction, (biased : Int) - 1075⟩

def ofBits (bits : Nat) : Float := Float.ofBits bits.toUInt64

def infinity : Float := ofBits infinityBits

def nan : Float := ofBits 0x7FF8000000000000

def roundDiv (num den : Nat) : Nat :=
  let quotient := num / den
  let twice := 2 * (num % den)
  if den < twice || (twice == den && quotient % 2 == 1) then quotient + 1 else quotient

/-- `n` times two to the power `e`, as numerator and denominator. -/
def scaleTwo (num den : Nat) (e : Int) : Nat × Nat :=
  match e with
  | .ofNat k => (num * twoPow k, den)
  | .negSucc k => (num, den * twoPow (k + 1))

/-- The double nearest to `num / den`, the even one of two equally near; too
large a quotient gives infinity.  The denominator is positive. -/
def nearest (num den : Nat) : Float :=
  if num = 0 then 0
  else
    -- The quotient lies strictly between `2 ^ (gap - 1)` and `2 ^ (gap + 1)`.
    let gap : Int := (Nat.log2 num : Int) - Nat.log2 den
    let (n, d) := scaleTwo num den (53 - gap)
    let exponent := if n / d < twoPow 53 then gap - 53 else gap - 52
    let exponent := if exponent < minExponent then minExponent else exponent
    let (n, d) := scaleTwo num den (-exponent)
    let mantissa := roundDiv n d
    let bits :=
      if mantissa < twoPow 52 then mantissa
      else (exponent + 1075).toNat * twoPow 52 + (mantissa - twoPow 52)
    ofBits (min bits infinityBits)

def ofNat (n : Nat) : Float := nearest n 1

/-- The whole part of a finite double, rounded toward zero. -/
def truncate (x : Float) : Int :=
  let b := toBinary x
  let (n, d) := scaleTwo b.mantissa 1 b.exponent
  if b.negative then -(n / d : Nat) else (n / d : Nat)

/-- A finite double rounded toward zero, as a double of the same sign. -/
def trunc (x : Float) : Float := if signBit x then x.ceil else x.floor

/-- Whether a finite double is a whole number. -/
def isWhole (x : Float) : Bool :=
  let b := toBinary x
  let (n, d) := scaleTwo b.mantissa 1 b.exponent
  n % d == 0

def ofInt : Int → Float
  | .ofNat n => ofNat n
  | .negSucc n => -(ofNat (n + 1))

/-- The remainder of a division that rounds toward zero; it takes the sign of
the dividend and is always exact. -/
def remainder (x y : Float) : Float :=
  if x.isNaN || y.isNaN || x.isInf || y == 0 then nan
  else if y.isInf || x == 0 then x
  else
    let a := toBinary x
    let b := toBinary y
    let least := min a.exponent b.exponent
    let m := (scaleTwo a.mantissa 1 (a.exponent - least)).1
    let n := (scaleTwo b.mantissa 1 (b.exponent - least)).1
    let (num, den) := scaleTwo (m % n) 1 least
    let r := nearest num den
    if a.negative then -r else r

end Laconic.Number
