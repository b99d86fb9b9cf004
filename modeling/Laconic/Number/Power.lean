/-!
# Powers

The powers that bounds of machine numbers and the places of digits are.
-/

namespace Laconic

def twoPow (k : Nat) : Nat := 1 <<< k

def tenPow : Nat → Nat
  | 0 => 1
  | k + 1 => 10 * tenPow k

end Laconic
