/-!
# UTF-16 code units

The length of a string, the order of strings and the escapes of a string
literal are defined on UTF-16 code units.  Texts are kept as sequences of
characters; this module turns them into units and back.

Decoding goes through `scalars`, which gives one entry per character and
`none` for each surrogate that stands without its partner.
-/

namespace Laconic

abbrev CodeUnit := UInt16

namespace CodeUnit

def isHigh (u : CodeUnit) : Bool := 0xD800 ≤ u.toNat && u.toNat < 0xDC00

def isLow (u : CodeUnit) : Bool := 0xDC00 ≤ u.toNat && u.toNat < 0xE000

def pair (high low : CodeUnit) : Char :=
  Char.ofNat (0x10000 + (high.toNat - 0xD800) * 0x400 + (low.toNat - 0xDC00))

end CodeUnit

/-- The character written in place of a surrogate without a partner. -/
def replacementChar : Char := '�'

/-- The code units of one character: two above `U+FFFF`, else one. -/
def charUnits (c : Char) : List CodeUnit :=
  if c.toNat < 0x10000 then [c.toNat.toUInt16]
  else
    let n := c.toNat - 0x10000
    [(0xD800 + n / 0x400).toUInt16, (0xDC00 + n % 0x400).toUInt16]

/-- Number of code units of one character. -/
def charWidth (c : Char) : Nat := if c.toNat < 0x10000 then 1 else 2

def units (s : String) : List CodeUnit := s.toList.flatMap charUnits

def unitLength (s : String) : Nat := s.toList.foldr (fun c n => charWidth c + n) 0

/-- The characters that a sequence of units stands for, with `none` for each
lone surrogate.  `held` is a first half still waiting for its partner. -/
def scalarsFrom (held : Option CodeUnit) : List CodeUnit → List (Option Char)
  | [] => if held.isSome then [none] else []
  | u :: us =>
    match held with
    | some high =>
      if u.isLow then some (CodeUnit.pair high u) :: scalarsFrom none us
      else if u.isHigh then none :: scalarsFrom (some u) us
      else none :: some (Char.ofNat u.toNat) :: scalarsFrom none us
    | none =>
      if u.isHigh then scalarsFrom (some u) us
      else if u.isLow then none :: scalarsFrom none us
      else some (Char.ofNat u.toNat) :: scalarsFrom none us

/-- The characters that a sequence of units stands for, with `none` for each
lone surrogate. -/
def scalars (us : List CodeUnit) : List (Option Char) := scalarsFrom none us

/-- The text of a sequence of units, if no surrogate stands alone. -/
def decodeUnits? (us : List CodeUnit) : Option String :=
  ((scalars us).mapM id).map String.ofList

/-- The text of a sequence of units, each lone surrogate replaced. -/
def decodeUnitsLossy (us : List CodeUnit) : String :=
  String.ofList ((scalars us).map (·.getD replacementChar))

/-- Strings are ordered by their code units, which differs from the order of
characters above `U+D7FF`. -/
def unitsLess (a b : String) : Bool := decide (units a < units b)

/-! ## Decoding undoes encoding -/

private theorem toNat_toUInt16 {n : Nat} (h : n < 0x10000) : n.toUInt16.toNat = n := by
  simp [Nat.toUInt16, Nat.mod_eq_of_lt h]

private theorem scalarsFrom_charUnits (c : Char) (rest : List CodeUnit) :
    scalarsFrom none (charUnits c ++ rest) = some c :: scalarsFrom none rest := by
  have hv : c.toNat < 0xD800 ∨ (0xDFFF < c.toNat ∧ c.toNat < 0x110000) := c.valid
  have hc : Char.ofNat c.toNat = c := Char.ofNat_toNat c
  unfold charUnits
  split
  · rename_i h
    have e := toNat_toUInt16 h
    have hHigh : CodeUnit.isHigh c.toNat.toUInt16 = false := by
      simp only [CodeUnit.isHigh, e, Bool.and_eq_false_iff, decide_eq_false_iff_not]
      omega
    have hLow : CodeUnit.isLow c.toNat.toUInt16 = false := by
      simp only [CodeUnit.isLow, e, Bool.and_eq_false_iff, decide_eq_false_iff_not]
      omega
    simp [scalarsFrom, hHigh, hLow, e, hc]
  · rename_i h
    have eh : (0xD800 + (c.toNat - 0x10000) / 0x400).toUInt16.toNat
        = 0xD800 + (c.toNat - 0x10000) / 0x400 := toNat_toUInt16 (by omega)
    have el : (0xDC00 + (c.toNat - 0x10000) % 0x400).toUInt16.toNat
        = 0xDC00 + (c.toNat - 0x10000) % 0x400 := toNat_toUInt16 (by omega)
    have hHigh : CodeUnit.isHigh (0xD800 + (c.toNat - 0x10000) / 0x400).toUInt16 = true := by
      simp only [CodeUnit.isHigh, eh, Bool.and_eq_true, decide_eq_true_eq]
      omega
    have hLow : CodeUnit.isLow (0xDC00 + (c.toNat - 0x10000) % 0x400).toUInt16 = true := by
      simp only [CodeUnit.isLow, el, Bool.and_eq_true, decide_eq_true_eq]
      omega
    have hp : CodeUnit.pair (0xD800 + (c.toNat - 0x10000) / 0x400).toUInt16
        (0xDC00 + (c.toNat - 0x10000) % 0x400).toUInt16 = c := by
      unfold CodeUnit.pair
      rw [eh, el]
      have : 0x10000 + (0xD800 + (c.toNat - 0x10000) / 0x400 - 0xD800) * 0x400
          + (0xDC00 + (c.toNat - 0x10000) % 0x400 - 0xDC00) = c.toNat := by omega
      rw [this, hc]
    simp only [List.cons_append, List.nil_append, scalarsFrom, hHigh, hLow, hp, if_true]

/-- Decoding the units of a text gives back the text. -/
theorem scalars_units (s : String) : scalars (units s) = s.toList.map some := by
  unfold scalars units
  induction s.toList with
  | nil => rfl
  | cons c cs ih => simp [List.flatMap_cons, scalarsFrom_charUnits, ih]

end Laconic
