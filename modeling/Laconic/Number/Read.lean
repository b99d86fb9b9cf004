import Laconic.Number.Shortest

/-!
# Reading numerals

A decimal numeral is a sign, digits with an optional point, and an optional
exponent; at least one digit stands before or after the point.  Its value is
the nearest double.  Digits of another radix are accumulated digit by digit
in double arithmetic.
-/

namespace Laconic.Number

/-- The nearest double to `digits * 10 ^ exponent`.  Sizes far outside the
range of doubles are decided from the number of digits alone. -/
def ofDecimal (digits : Nat) (exponent : Int) : Float :=
  if digits = 0 then 0
  else
    let size := exponent + digitCount digits
    if 400 < size then infinity
    else if size < -400 then 0
    else
      let (num, den) := powTen exponent
      nearest (digits * num) den

def digitValue? (radix : Nat) (c : Char) : Option Nat :=
  let value? : Option Nat :=
    if c.isDigit then some (c.toNat - '0'.toNat)
    else if c.isLower then some (c.toNat - 'a'.toNat + 10)
    else if c.isUpper then some (c.toNat - 'A'.toNat + 10)
    else none
  value?.filter (· < radix)

/-- The whole number that decimal digits spell. -/
def natOfDigits (digits : List Char) : Nat :=
  digits.foldl (fun n c => 10 * n + (c.toNat - '0'.toNat)) 0

/-- Splits off a leading sign; the answer says whether it was a minus. -/
def takeSign : List Char → Bool × List Char
  | '-' :: rest => (true, rest)
  | '+' :: rest => (false, rest)
  | rest => (false, rest)

def readExponent? : List Char → Option Int
  | [] => some 0
  | c :: rest =>
    if c == 'e' || c == 'E' then
      let (negative, digits) := takeSign rest
      if digits.isEmpty || !digits.all Char.isDigit then none
      else
        let n : Int := natOfDigits digits
        some (if negative then -n else n)
    else none

def readDecimal? (text : List Char) : Option Float :=
  let (negative, rest) := takeSign text
  let whole := rest.takeWhile Char.isDigit
  let rest := rest.dropWhile Char.isDigit
  let (fraction, rest) :=
    match rest with
    | '.' :: rest => (rest.takeWhile Char.isDigit, rest.dropWhile Char.isDigit)
    | rest => ([], rest)
  if whole.isEmpty && fraction.isEmpty then none
  else
    (readExponent? rest).map fun exponent =>
      let size := ofDecimal (natOfDigits (whole ++ fraction)) (exponent - fraction.length)
      if negative then -size else size

/-- The value of digits in a radix, accumulated from the left in double
arithmetic. -/
def readRadix? (radix : Nat) (digits : List Char) : Option Float :=
  digits.foldlM (fun value c => (digitValue? radix c).map fun d =>
    value * ofNat radix + ofNat d) 0

end Laconic.Number
