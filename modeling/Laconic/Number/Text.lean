import Laconic.Number.Shortest

/-!
# The text of a number

A number is written with the fewest digits that read back.  Up to 21 digits
before the point are written out, and up to six zeros after it; beyond that
an exponent with its sign follows the digits.
-/

namespace Laconic.Number

/-- Where positional notation ends. -/
structure TextFormat where
  /-- Most digits in front of the decimal point. -/
  maxPoint : Int
  /-- A number whose point stands this far to the left, or further, gets an
  exponent. -/
  minPoint : Int

def textFormat : TextFormat := ⟨21, -6⟩

def zeros (n : Nat) : String := String.ofList (List.replicate n '0')

/-- The text of a positive number given by its shortest decimal. -/
def decimalText (d : Decimal) : String :=
  let digits := Nat.toDigits 10 d.digits
  let count : Int := digits.length
  let point := d.point
  if count ≤ point && point ≤ textFormat.maxPoint then
    String.ofList digits ++ zeros (point - count).toNat
  else if 0 < point && point ≤ textFormat.maxPoint then
    String.ofList (digits.take point.toNat) ++ "." ++ String.ofList (digits.drop point.toNat)
  else if textFormat.minPoint < point && point ≤ 0 then
    "0." ++ zeros (-point).toNat ++ String.ofList digits
  else
    let exponent := point - 1
    let sign := if 0 ≤ exponent then "+" else "-"
    let rest := digits.drop 1
    let fraction := if rest.isEmpty then "" else "." ++ String.ofList rest
    String.ofList (digits.take 1) ++ fraction ++ "e" ++ sign ++ Nat.repr exponent.natAbs

/-- The text of a number; the sign of zero is not written. -/
def text (x : Float) : String :=
  if x.isNaN then "NaN"
  else if x == 0 then "0"
  else if x.isInf then (if signBit x then "-Infinity" else "Infinity")
  else (if signBit x then "-" else "") ++ decimalText (shortest x)

/-- The text of a number in which zero keeps its sign. -/
def signedText (x : Float) : String :=
  if x == 0 && signBit x then "-0" else text x

end Laconic.Number
