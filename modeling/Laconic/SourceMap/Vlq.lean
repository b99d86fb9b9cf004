import Laconic.Error
import Laconic.Number.Power

/-!
# Numbers of variable length

A number is written as digits of five bits, the lowest first; the lowest bit of
all is the sign.  A digit stands for a character, and one that is not the last of
its number is 32 more.
-/

namespace Laconic.Vlq

def alphabet : List Char :=
  "ABCDEFGHIJKLMNOPQRSTUVWXYZabcdefghijklmnopqrstuvwxyz0123456789+/".toList

/-! ## Writing -/

/-- The digits of a number without sign. -/
def digits (n : Nat) : List Nat :=
  if n < 32 then [n] else (n % 32 + 32) :: digits (n / 32)
termination_by n
decreasing_by omega

/-- The sign and size of a number as one number. -/
def fold : Int → Nat
  | .ofNat n => 2 * n
  | .negSucc n => 2 * (n + 1) + 1

def encode (z : Int) : String :=
  String.ofList ((digits (fold z)).map fun d => alphabet.getD d 'A')

/-! ## Reading -/

/-- The digits that a character stands for.  Each byte of a character that is no
digit counts as one that is all ones and not the last. -/
def digitsOf (c : Char) : List Nat :=
  match alphabet.idxOf? c with
  | some d => [d]
  | none => List.replicate c.utf8Size 63

/-- The value of 64 bits, which are a number in two's complement with its sign
in the lowest bit. -/
def unfold (bits : Nat) : Int :=
  let half : Int := (bits / 2 : Nat)
  let value := if bits < twoPow 63 then half else half - (twoPow 63 : Nat)
  if bits % 2 == 1 then -value else value

/-- Reads the numbers of a list of digits; `bits` and `shift` are what has been
read of the present number. -/
def numbers (bits shift : Nat) : List Nat → Except MapFault (List Int)
  | [] => if shift == 0 then .ok [] else .error .vlqLeftover
  | d :: rest =>
    if 64 ≤ shift then .error .vlqOverflow
    else
      let bits := (bits + (d % 32) <<< shift) % twoPow 64
      if d < 32 then (numbers 0 0 rest).map (unfold bits :: ·)
      else numbers bits (shift + 5) rest

def decode (text : String) : Except MapFault (List Int) :=
  numbers 0 0 (text.toList.flatMap digitsOf)

end Laconic.Vlq
