import Laconic.Number.Read
import Mathlib

/-!
# Doubles by mantissa and exponent

The doubles from zero up to infinity are numbered by their bit patterns, and
each pattern is a mantissa and an exponent.  `Representable m q` says which
pairs occur, `double m q` is the double of a pair, and a double whose sign bit
is clear is the double of the pair that `toBinary` takes it apart into.  All
later facts about numbers are stated with pairs, so that bit patterns and the
model of doubles are opened in this module only.
-/

namespace Laconic.Number

open Float.Model Float.Model.UnpackedFloat Format

variable {m : Nat} {q : Int} {x : Float} {b : BitVec 64}

theorem twoPow_eq (k : Nat) : twoPow k = 2 ^ k := Nat.one_shiftLeft k

/-- `m` and `q` are the mantissa and the exponent of a finite double. -/
structure Representable (m : Nat) (q : Int) : Prop where
  mantissa_lt : m < 2 ^ 53
  le_exponent : -1074 ≤ q
  exponent_le : q ≤ 971
  /-- All bits of the mantissa are used, unless the exponent is the least. -/
  normal : 2 ^ 52 ≤ m ∨ q = -1074

def bitPattern (m : Nat) (q : Int) : Nat :=
  if m < 2 ^ 52 then m else (q + 1075).toNat * 2 ^ 52 + (m - 2 ^ 52)

/-- The double `m * 2 ^ q`. -/
def double (m : Nat) (q : Int) : Float := ofBits (bitPattern m q)

theorem bitPattern_lt (h : Representable m q) : bitPattern m q < infinityBits := by
  obtain ⟨hm, hq, hq', hn⟩ := h
  unfold bitPattern infinityBits
  split <;> omega

/-! ## The fields of a bit pattern -/

theorem toNat_unpackMantissa (b : BitVec 64) :
    (@unpackMantissa binary64 b).toNat = b.toNat % 2 ^ 52 := by
  simp [unpackMantissa, binary64]

theorem toNat_unpackExponent (b : BitVec 64) :
    (@unpackExponent binary64 b).toNat = b.toNat / 2 ^ 52 % 2 ^ 11 := by
  simp [unpackExponent, binary64, Nat.shiftRight_eq_div_pow]

theorem toNat_unpackSign (b : BitVec 64) :
    (@unpackSign binary64 b).toNat = b.toNat / 2 ^ 63 % 2 := by
  simp [unpackSign, binary64, Nat.shiftRight_eq_div_pow]

theorem toNat_packComponents (s : Sign) (e : BitVec 11) (m : BitVec 52) :
    (packComponents binary64 s e m).toNat
      = (s.toBitVec.toNat * 2 ^ 11 + e.toNat) * 2 ^ 52 + m.toNat := by
  show (s.toBitVec ++ e ++ m).toNat = _
  rw [BitVec.toNat_append, BitVec.toNat_append, ← Nat.shiftLeft_add_eq_or_of_lt m.isLt,
    ← Nat.shiftLeft_add_eq_or_of_lt e.isLt, Nat.shiftLeft_eq, Nat.shiftLeft_eq]

theorem ofBitVec_unpackSign (h : b.toNat < 2 ^ 63) :
    Sign.ofBitVec (@unpackSign binary64 b) = .positive := by
  have hz : @unpackSign binary64 b = 0#1 := by
    apply BitVec.eq_of_toNat_eq
    rw [toNat_unpackSign]
    simp
    omega
  rw [hz]
  rfl

/-! ## Unpacking and packing -/

theorem unpack_of_toNat_eq (h : Representable m q) (hm : 0 < m) (hb : b.toNat = bitPattern m q) :
    UnpackedFloat.unpack binary64 b = .finite .positive m q hm := by
  have hlt := bitPattern_lt h
  have hs := ofBitVec_unpackSign (b := b) (by unfold infinityBits at hlt; omega)
  have he := toNat_unpackExponent b
  have hf := toNat_unpackMantissa b
  obtain ⟨hm', hq, hq', hn⟩ := h
  unfold bitPattern at hb
  have hmax : @unpackExponent binary64 b ≠ -1#11 := by
    intro h1
    simp [h1] at he
    split at hb <;> omega
  by_cases hlow : m < 2 ^ 52
  · rw [if_pos hlow] at hb
    have hz : @unpackExponent binary64 b = 0#11 := BitVec.eq_of_toNat_eq (by simp; omega)
    have hfm : (@unpackMantissa binary64 b).toNat = m := by omega
    have hf0 : @unpackMantissa binary64 b ≠ 0#52 := fun h0 => by simp [h0] at hfm; omega
    have hexp : (0 : Int) - ((binary64.exponentBias : Nat) + (52 : Nat)) + 1 = q := by
      simp [exponentBias]
      omega
    simp only [UnpackedFloat.unpack, hz, if_true, if_false, hf0, dite_false, hfm, hs]
    rw [if_neg (by decide)]
    congr 1
  · rw [if_neg hlow] at hb
    have hz : @unpackExponent binary64 b ≠ 0#11 := fun h0 => by simp [h0] at he; omega
    have hfm : (1#1 ++ @unpackMantissa binary64 b).toNat = m := by
      rw [BitVec.toNat_append, ← Nat.shiftLeft_add_eq_or_of_lt (BitVec.isLt _), hf]
      simp
      omega
    simp only [UnpackedFloat.unpack, hmax, if_false, hz, hs, hfm, he]
    congr 1
    simp [exponentBias]
    omega

theorem toNat_pack (h : Representable m q) (hm : 0 < m) :
    (UnpackedFloat.pack binary64 (.finite .positive m q hm)).toNat = bitPattern m q := by
  obtain ⟨hm', hq, hq', hn⟩ := h
  have hbias : (q + (binary64.exponentBias : Nat) + (52 : Nat)).toNat
      = (q + 1075).toNat := by
    simp [exponentBias]
    omega
  have hlog : m.log2 + 1 = 53 ↔ 2 ^ 52 ≤ m := by
    rw [show m.log2 + 1 = 53 ↔ m.log2 = 52 by omega, Nat.log2_eq_iff (by omega)]
    omega
  have hfit : ¬ 2 ^ 11 ≤ (q + 1075).toNat + 1 := by omega
  show (if 2 ^ 11 ≤ (q + (binary64.exponentBias : Nat) + (52 : Nat)).toNat + 1 then _
    else if m.log2 + 1 = 53 then _ else _ : BitVec 64).toNat = _
  rw [hbias, if_neg hfit, bitPattern]
  by_cases hlow : m < 2 ^ 52
  · rw [if_neg (by omega), if_pos hlow, toNat_packComponents]
    simp [Sign.toBitVec]
    omega
  · rw [if_pos (by omega), if_neg hlow, toNat_packComponents]
    simp [Sign.toBitVec]
    omega

theorem toNat_toUInt64 {n : Nat} (h : n < 2 ^ 64) : n.toUInt64.toNat = n := Nat.mod_eq_of_lt h

theorem toBits_double (h : Representable m q) : (double m q).toBits.toNat = bitPattern m q := by
  by_cases hm : m = 0
  · have hz : bitPattern m q = 0 := by simp [bitPattern, hm]
    show (ofBits (bitPattern m q)).toBits.toNat = bitPattern m q
    rw [hz]
    rfl
  · have hpos : 0 < m := by omega
    have hlt := bitPattern_lt h
    have hb : (bitPattern m q).toUInt64.toNat = bitPattern m q :=
      toNat_toUInt64 (by unfold infinityBits at hlt; omega)
    show (UnpackedFloat.pack binary64 (UnpackedFloat.unpack binary64
      (bitPattern m q).toUInt64.toBitVec)).toNat = _
    rw [unpack_of_toNat_eq h hpos hb, toNat_pack h hpos]

theorem toModel_unpack_double (h : Representable m q) (hm : 0 < m) :
    (double m q).toModel.unpack = .finite .positive m q hm :=
  unpack_of_toNat_eq h hm (toBits_double h)

/-- A double is determined by its bit pattern. -/
theorem eq_of_toBits {y : Float} (h : x.toBits.toNat = y.toBits.toNat) : x = y := by
  obtain ⟨⟨a, ha⟩⟩ := x
  obtain ⟨⟨b, hb⟩⟩ := y
  have hab : a = b := UInt64.toNat_inj.1 h
  subst hab
  rfl

theorem pack_eq_double (h : Representable m q) (hm : 0 < m) :
    Float.ofModel (Float.Model.pack (.finite .positive m q hm)) = double m q := by
  apply eq_of_toBits
  rw [toBits_double h]
  exact toNat_pack h hm

theorem double_zero (q : Int) : double 0 q = 0 := by
  show ofBits (bitPattern 0 q) = 0
  have hz : bitPattern 0 q = 0 := by simp [bitPattern]
  rw [hz]
  decide

/-! ## Taking a double apart -/

theorem signBit_of_nonneg (h : 0 ≤ x) : signBit x = false ∨ (x == 0) = true := by
  have hle : (0 : Float).toModel.unpack.le x.toModel.unpack = true := of_decide_eq_true h
  show _ ∨ x.toModel.unpack.beq (0 : Float).toModel.unpack = true
  rw [Classical.or_iff_not_imp_left, Bool.not_eq_false]
  intro hs
  have hsign : @unpackSign binary64 x.toBits.toBitVec = 1#1 := by
    apply BitVec.eq_of_toNat_eq
    have hbits : x.toBits.toNat / 2 ^ 63 = 1 := by simpa [signBit, twoPow_eq] using hs
    rw [toNat_unpackSign, show x.toBits.toBitVec.toNat = x.toBits.toNat from rfl, hbits]
    rfl
  have hunpack : x.toModel.unpack = UnpackedFloat.unpack binary64 x.toBits.toBitVec := rfl
  rw [hunpack, UnpackedFloat.unpack, hsign] at hle ⊢
  split_ifs at hle ⊢
  · cases hle
  · cases hle
  · rfl
  · cases hle
  · cases hle

variable (hf : x.isFinite = true)

include hf

theorem toBits_lt_infinityBits (hs : signBit x = false) : x.toBits.toNat < infinityBits := by
  have he := toNat_unpackExponent x.toBits.toBitVec
  have hmax : @unpackExponent binary64 x.toBits.toBitVec ≠ -1#11 := by
    intro h1
    have hu : x.isFinite
        = (UnpackedFloat.unpack binary64 x.toBits.toBitVec).isFinite := rfl
    rw [hu, UnpackedFloat.unpack] at hf
    simp only [h1, if_true] at hf
    split at hf <;> simp [UnpackedFloat.isFinite] at hf
  have hne : (@unpackExponent binary64 x.toBits.toBitVec).toNat ≠ 2047 :=
    fun h1 => hmax (BitVec.eq_of_toNat_eq h1)
  have hsign : ¬ x.toBits.toNat / 2 ^ 63 = 1 := by
    simpa [signBit, twoPow_eq] using hs
  have hb : x.toBits.toBitVec.toNat = x.toBits.toNat := rfl
  unfold infinityBits
  omega

theorem toBinary_spec (hs : signBit x = false) :
    Representable (toBinary x).mantissa (toBinary x).exponent
      ∧ bitPattern (toBinary x).mantissa (toBinary x).exponent = x.toBits.toNat := by
  have hlt := toBits_lt_infinityBits hf hs
  unfold toBinary
  simp only [twoPow_eq, minExponent]
  generalize x.toBits.toNat = bits at hlt ⊢
  unfold infinityBits at hlt
  have hbiased : bits / 2 ^ 52 % 2 ^ 11 = bits / 2 ^ 52 := by omega
  rw [hbiased]
  by_cases hz : bits / 2 ^ 52 = 0
  · rw [if_pos hz]
    refine ⟨⟨?_, ?_, ?_, ?_⟩, ?_⟩
    · show bits % 2 ^ 52 < 2 ^ 53
      omega
    · exact Int.le_refl _
    · show (-1074 : Int) ≤ 971
      decide
    · exact Or.inr rfl
    · show bitPattern (bits % 2 ^ 52) (-1074) = bits
      rw [bitPattern, if_pos (by omega)]
      omega
  · rw [if_neg hz]
    refine ⟨⟨?_, ?_, ?_, ?_⟩, ?_⟩
    · show 2 ^ 52 + bits % 2 ^ 52 < 2 ^ 53
      omega
    · show (-1074 : Int) ≤ (bits / 2 ^ 52 : Nat) - 1075
      omega
    · show ((bits / 2 ^ 52 : Nat) : Int) - 1075 ≤ 971
      omega
    · exact Or.inl (Nat.le_add_right _ _)
    · show bitPattern (2 ^ 52 + bits % 2 ^ 52) ((bits / 2 ^ 52 : Nat) - 1075) = bits
      rw [bitPattern, if_neg (by omega)]
      omega

theorem representable_toBinary (hs : signBit x = false) :
    Representable (toBinary x).mantissa (toBinary x).exponent := (toBinary_spec hf hs).1

theorem double_toBinary (hs : signBit x = false) :
    double (toBinary x).mantissa (toBinary x).exponent = x := by
  obtain ⟨hr, hb⟩ := toBinary_spec hf hs
  apply eq_of_toBits
  rw [toBits_double hr, hb]

end Laconic.Number
