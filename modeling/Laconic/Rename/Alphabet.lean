import Laconic.Token.Basic

/-!
# Short names

New names are numbered.  The first character of a name is a letter, `$` or `_`,
the others may be digits too, and the characters are sorted by how often they
occur in the program anyway, which helps a later compression of the text.
-/

namespace Laconic

/-- The characters of names, the most frequent first. -/
structure Alphabet where
  leading : List Char
  trailing : List Char

namespace Alphabet

/-- The characters that a name can begin with. -/
def leadingChars : List Char :=
  "abcdefghijklmnopqrstuvwxyzABCDEFGHIJKLMNOPQRSTUVWXYZ$_".toList

/-- The characters that a name can go on with. -/
def trailingChars : List Char := leadingChars ++ "0123456789".toList

/-- Characters sorted by their frequency; those that are equally frequent stay in
order. -/
def sortByFrequency (frequency : Char → Int) (cs : List Char) : List Char :=
  cs.mergeSort fun a b => frequency b ≤ frequency a

def ofFrequency (frequency : Char → Int) : Alphabet :=
  ⟨sortByFrequency frequency leadingChars, sortByFrequency frequency trailingChars⟩

def plain : Alphabet := ofFrequency fun _ => 0

/-- The characters of a name after the first one. -/
def tail (a : Alphabet) (n : Nat) : List Char :=
  if n = 0 then []
  else a.trailing.getD ((n - 1) % 64) 'a' :: a.tail ((n - 1) / 64)
termination_by n
decreasing_by exact Nat.lt_of_le_of_lt (Nat.div_le_self _ _) (by omega)

/-- The name with a number: the first digit has 54 values, the others 64. -/
def name (a : Alphabet) (n : Nat) : String :=
  String.ofList (a.leading.getD (n % 54) 'a' :: a.tail (n / 54))

/-- The first name that is allowed from a number on, with the number after its
own.  At most `rounds` names are not allowed. -/
def next (a : Alphabet) (allowed : String → Bool) : Nat → Nat → String × Nat
  | 0, n => (a.name n, n + 1)
  | rounds + 1, n =>
    if allowed (a.name n) then (a.name n, n + 1) else a.next allowed rounds (n + 1)

/-- The first name from a number on that is no reserved word and not among the
given ones, with the number after its own. -/
def fresh (a : Alphabet) (taken : List String) (n : Nat) : String × Nat :=
  a.next (fun name => !isReservedWord name && !taken.contains name)
    (Word.all.length + taken.length) n

end Alphabet

end Laconic
