import Laconic.Proofs.Number.Nearest

/-!
# Whole numbers in double arithmetic

Sums and products of whole numbers below `2 ^ 53` are exact.  So digits of any radix
that are accumulated in double arithmetic give the number that they spell.
-/

namespace Laconic.Number

open Float.Model Float.Model.UnpackedFloat

variable {a b m n radix : Nat} {q : Int} {chars : List Char} {digits : List Nat} {x : Float}

/-! ## The double of a whole number -/

def wholeMantissa (n : Nat) : Nat := n * 2 ^ (52 - n.log2)

def wholeExponent (n : Nat) : Int := n.log2 - 52

theorem log2_le_of_lt (h : n < 2 ^ 53) : n.log2 ≤ 52 := by
  by_cases hn : n = 0
  · subst hn
    decide
  · have := (Nat.log2_lt hn).2 h
    omega

theorem wholeMantissa_pos (hn : 0 < n) : 0 < wholeMantissa n :=
  Nat.mul_pos hn (Nat.two_pow_pos _)

theorem representable_whole (hn : 0 < n) (h : n < 2 ^ 53) :
    Representable (wholeMantissa n) (wholeExponent n) := by
  have hlog := log2_le_of_lt h
  have hlow : 2 ^ n.log2 ≤ n := Nat.log2_self_le (by omega)
  have hhigh : n < 2 ^ (n.log2 + 1) := Nat.lt_log2_self
  have h52 : 2 ^ n.log2 * 2 ^ (52 - n.log2) = 2 ^ 52 := by
    rw [← Nat.pow_add]
    congr 1
    omega
  have h53 : 2 ^ (n.log2 + 1) * 2 ^ (52 - n.log2) = 2 ^ 53 := by
    rw [← Nat.pow_add]
    congr 1
    omega
  refine ⟨?_, ?_, ?_, .inl ?_⟩
  · rw [← h53]
    exact Nat.mul_lt_mul_of_pos_right hhigh (Nat.two_pow_pos _)
  · unfold wholeExponent
    omega
  · unfold wholeExponent
    omega
  · rw [← h52]
    exact Nat.mul_le_mul_right _ hlow

theorem ofNat_eq_of_roundsTo (hn : 0 < n) (h : Representable m q) (hr : RoundsTo m q n) :
    ofNat n = double m q := by
  apply nearest_eq_double hn Nat.one_pos h
  rwa [Nat.cast_one, div_one]

theorem ofNat_eq_of_mul (hn : 0 < n) (h : Representable m q) (hvalue : (n : ℚ) = m * 2 ^ q) :
    ofNat n = double m q := by
  have hm : 0 < m := by
    by_contra hzero
    rw [show m = 0 by omega] at hvalue
    norm_num at hvalue
    omega
  apply ofNat_eq_of_roundsTo hn h
  rw [hvalue]
  exact roundsTo_self hm q

theorem ofNat_eq_double (hn : 0 < n) (h : n < 2 ^ 53) :
    ofNat n = double (wholeMantissa n) (wholeExponent n) := by
  apply ofNat_eq_of_mul hn (representable_whole hn h)
  have hlog := log2_le_of_lt h
  unfold wholeMantissa wholeExponent
  push_cast
  rw [mul_assoc, ← zpow_natCast, ← zpow_add₀ (by norm_num), Nat.cast_sub hlog]
  norm_num

theorem ofNat_zero : ofNat 0 = 0 := rfl

/-! ## Exact rounding -/

theorem shiftRight_exact (m k : Nat) :
    (⟨m * 2 ^ k, false, false⟩ : ExtendedMantissa) >>> k = ⟨m, false, false⟩ := by
  show Nat.repeat ExtendedMantissa.shiftRightOne k _ = _
  induction k generalizing m with
  | zero => simp [Nat.repeat]
  | succ k ih =>
    have hm : m * 2 ^ (k + 1) = 2 * m * 2 ^ k := by
      rw [Nat.pow_succ]
      ring
    rw [hm, Nat.repeat, ih]
    simp [ExtendedMantissa.shiftRightOne]

theorem targetExponent_of_representable (h : Representable m q) (hm : 0 < m) :
    Format.binary64.targetExponent (totalExponent m q) = q := by
  have hlt : m.log2 < 53 := (Nat.log2_lt (by omega)).2 h.mantissa_lt
  have hmin : Format.binary64.minExponent = -1074 := by decide
  show max ((m.log2 : Int) + 1 + q - 53) Format.binary64.minExponent = q
  rcases h.normal with hnormal | hleast
  · have hlog : 52 ≤ m.log2 := (Nat.le_log2 (by omega)).2 hnormal
    have := h.le_exponent
    omega
  · omega

theorem log2_mul_two_pow (hm : 0 < m) (k : Nat) : (m * 2 ^ k).log2 = m.log2 + k := by
  induction k with
  | zero => simp
  | succ k ih =>
    have hpos : m * 2 ^ k ≠ 0 := Nat.ne_of_gt (Nat.mul_pos hm (Nat.two_pow_pos _))
    rw [Nat.pow_succ, ← Nat.mul_assoc, Nat.mul_comm _ 2, Nat.log2_two_mul hpos, ih]
    rfl

theorem roundWithAccuracy_exact (h : Representable m q) (hm : 0 < m) (k : Nat) :
    roundWithAccuracy Format.binary64 .positive (m * 2 ^ k) (q - k) .exact
      = .finite .positive m q hm := by
  have htotal : totalExponent (m * 2 ^ k) (q - k) = totalExponent m q := by
    unfold totalExponent
    rw [log2_mul_two_pow hm]
    push_cast
    ring
  have hfirst : shiftToTargetExponent Format.binary64 (m * 2 ^ k) (q - k) .exact
      = (⟨m, false, false⟩, q) := by
    show shiftToExponent _ _ _ (Format.binary64.targetExponent _) = _
    rw [htotal, targetExponent_of_representable h hm]
    unfold shiftToExponent
    rw [show (q - (q - (k : Int))).toNat = k by omega]
    simp only [ExtendedMantissa.ofMantissaAndAccuracy, shiftRight_exact]
    congr 1
    omega
  have hsecond : shiftToTargetExponent Format.binary64 m q .exact = (⟨m, false, false⟩, q) := by
    show shiftToExponent _ _ _ (Format.binary64.targetExponent _) = _
    rw [targetExponent_of_representable h hm]
    unfold shiftToExponent
    rw [show (q - q).toNat = 0 by omega]
    simp only [ExtendedMantissa.ofMantissaAndAccuracy]
    congr 1
    omega
  have hrounded : ExtendedMantissa.roundedMantissa ⟨m, false, false⟩ = m := rfl
  unfold roundWithAccuracy
  simp only [hfirst, hrounded, hsecond]
  rw [dif_neg (by omega)]

/-! ## Products and sums -/

theorem wholeMantissa_mul (ha : 0 < a) (hb : 0 < b) (h : a * b < 2 ^ 53) (hal : a < 2 ^ 53)
    (hbl : b < 2 ^ 53) : ∃ k : Nat,
      wholeMantissa a * wholeMantissa b = wholeMantissa (a * b) * 2 ^ k
        ∧ wholeExponent a + wholeExponent b = wholeExponent (a * b) - k := by
  have hlab := log2_le_of_lt h
  have hab : a * b ≠ 0 := Nat.ne_of_gt (Nat.mul_pos ha hb)
  have hge : a.log2 + b.log2 ≤ (a * b).log2 := by
    rw [Nat.le_log2 hab, Nat.pow_add]
    exact Nat.mul_le_mul (Nat.log2_self_le (by omega)) (Nat.log2_self_le (by omega))
  refine ⟨52 + (a * b).log2 - a.log2 - b.log2, ?_, ?_⟩
  · unfold wholeMantissa
    have hpow : 2 ^ (52 - a.log2) * 2 ^ (52 - b.log2)
        = 2 ^ (52 - (a * b).log2) * 2 ^ (52 + (a * b).log2 - a.log2 - b.log2) := by
      rw [← Nat.pow_add, ← Nat.pow_add]
      congr 1
      omega
    calc a * 2 ^ (52 - a.log2) * (b * 2 ^ (52 - b.log2))
        = a * b * (2 ^ (52 - a.log2) * 2 ^ (52 - b.log2)) := by ring
      _ = _ := by
          rw [hpow]
          ring
  · unfold wholeExponent
    omega

theorem unpack_ofNat (h : 0 < a) (hl : a < 2 ^ 53) : (ofNat a).toModel.unpack
    = .finite .positive (wholeMantissa a) (wholeExponent a) (wholeMantissa_pos h) := by
  rw [ofNat_eq_double h hl]
  exact toModel_unpack_double (representable_whole h hl) (wholeMantissa_pos h)

theorem pack_whole (h : 0 < a) (hl : a < 2 ^ 53) : Float.ofModel (pack
    (.finite .positive (wholeMantissa a) (wholeExponent a) (wholeMantissa_pos h))) = ofNat a := by
  rw [ofNat_eq_double h hl]
  exact pack_eq_double (representable_whole h hl) (wholeMantissa_pos h)

theorem ofNat_mul (hal : a < 2 ^ 53) (hbl : b < 2 ^ 53) (h : a * b < 2 ^ 53) :
    ofNat a * ofNat b = ofNat (a * b) := by
  show Float.ofModel (pack (UnpackedFloat.mul _ (ofNat a).toModel.unpack
    (ofNat b).toModel.unpack)) = _
  rcases Nat.eq_zero_or_pos a with rfl | ha <;> rcases Nat.eq_zero_or_pos b with rfl | hb
  · decide
  · rw [unpack_ofNat hb hbl, Nat.zero_mul, ofNat_zero]
    rfl
  · rw [unpack_ofNat ha hal, Nat.mul_zero, ofNat_zero]
    rfl
  · have hab : 0 < a * b := Nat.mul_pos ha hb
    obtain ⟨k, hm, hq⟩ := wholeMantissa_mul ha hb h hal hbl
    rw [unpack_ofNat ha hal, unpack_ofNat hb hbl]
    show Float.ofModel (pack (roundWithAccuracy _ .positive _ _ .exact)) = _
    rw [hm, hq, roundWithAccuracy_exact (representable_whole hab h) (wholeMantissa_pos hab),
      pack_whole hab h]

theorem wholeMantissa_shiftLeft (h : a < 2 ^ 53) (hq : q ≤ wholeExponent a) :
    wholeMantissa a <<< (wholeExponent a - q).toNat = a * 2 ^ (-q).toNat := by
  have hla := log2_le_of_lt h
  unfold wholeExponent at hq ⊢
  rw [Nat.shiftLeft_eq, wholeMantissa, Nat.mul_assoc, ← Nat.pow_add]
  congr 2
  omega

theorem log2_mono (ha : 0 < a) (h : a ≤ b) : a.log2 ≤ b.log2 :=
  (Nat.le_log2 (by omega)).2 (le_trans (Nat.log2_self_le (by omega)) h)

theorem normalize_whole (hn : 0 < n) (h : n < 2 ^ 53) (hq : q ≤ wholeExponent n) :
    normalize Format.binary64 ((n * 2 ^ (-q).toNat : Nat) : Int) q .positive
      = .finite .positive (wholeMantissa n) (wholeExponent n) (wholeMantissa_pos hn) := by
  have hrep := representable_whole hn h
  have hlog := log2_le_of_lt h
  have hpos : 0 < n * 2 ^ (-q).toNat := Nat.mul_pos hn (Nat.two_pow_pos _)
  have hshift : n * 2 ^ (-q).toNat = wholeMantissa n * 2 ^ (wholeExponent n - q).toNat := by
    unfold wholeMantissa
    unfold wholeExponent at hq ⊢
    rw [Nat.mul_assoc, ← Nat.pow_add]
    congr 2
    omega
  have hback : q = wholeExponent n - ((wholeExponent n - q).toNat : Nat) := by omega
  have htarget : Format.binary64.targetExponent (totalExponent (n * 2 ^ (-q).toNat) q)
      = wholeExponent n := by
    rw [← targetExponent_of_representable hrep (wholeMantissa_pos hn)]
    congr 1
    unfold totalExponent
    rw [hshift, log2_mul_two_pow (wholeMantissa_pos hn)]
    omega
  unfold UnpackedFloat.normalize
  rw [show compare ((n * 2 ^ (-q).toNat : Nat) : Int) 0 = .gt from
    compare_gt_iff_gt.2 (by exact_mod_cast hpos)]
  rw [Int.toNat_natCast]
  unfold UnpackedFloat.round
  simp only [htarget, decreaseExponent]
  rw [show (q - wholeExponent n).toNat = 0 by omega, Nat.shiftLeft_zero, hshift, Nat.cast_zero,
    Int.sub_zero]
  conv_lhs => rw [hback]
  rw [show (wholeExponent n - (wholeExponent n - ((wholeExponent n - q).toNat : Nat))).toNat
    = (wholeExponent n - q).toNat by omega]
  exact roundWithAccuracy_exact hrep (wholeMantissa_pos hn) _

theorem ofNat_add (h : a + b < 2 ^ 53) : ofNat a + ofNat b = ofNat (a + b) := by
  have hal : a < 2 ^ 53 := by omega
  have hbl : b < 2 ^ 53 := by omega
  show Float.ofModel (pack (UnpackedFloat.add _ (ofNat a).toModel.unpack
    (ofNat b).toModel.unpack)) = _
  rcases Nat.eq_zero_or_pos a with rfl | ha <;> rcases Nat.eq_zero_or_pos b with rfl | hb
  · decide
  · rw [unpack_ofNat hb hbl, Nat.zero_add, ofNat_zero]
    exact pack_whole hb hbl
  · rw [unpack_ofNat ha hal, Nat.add_zero, ofNat_zero]
    exact pack_whole ha hal
  · have hab : 0 < a + b := by omega
    have hmono := log2_mono ha (Nat.le_add_right a b)
    rw [unpack_ofNat ha hal, unpack_ofNat hb hbl]
    show Float.ofModel (pack (normalize _ (Sign.apply .positive _ + Sign.apply .positive _)
      (min (wholeExponent a) (wholeExponent b)) .positive)) = _
    rw [wholeMantissa_shiftLeft hal (min_le_left _ _),
      wholeMantissa_shiftLeft hbl (min_le_right _ _)]
    show Float.ofModel (pack (normalize _ ((_ : Nat) + (_ : Nat) : Int) _ .positive)) = _
    rw [← Nat.cast_add, ← Nat.add_mul, normalize_whole hab h, pack_whole hab h]
    refine le_trans (min_le_left _ _) ?_
    unfold wholeExponent
    omega

/-! ## Digits of a radix -/

def radixValue (radix : Nat) (n : Nat) (digits : List Nat) : Nat :=
  digits.foldl (fun n d => n * radix + d) n

theorem le_radixValue (hr : 0 < radix) (n : Nat) (digits : List Nat) :
    n ≤ radixValue radix n digits := by
  induction digits generalizing n with
  | nil => exact Nat.le_refl n
  | cons d digits ih =>
    calc n ≤ n * radix := Nat.le_mul_of_pos_right n hr
      _ ≤ n * radix + d := Nat.le_add_right _ _
      _ ≤ _ := ih _

theorem foldlM_radix (hr : 0 < radix) (hr' : radix < 2 ^ 53)
    (hdigits : chars.mapM (digitValue? radix) = some digits) (n : Nat)
    (h : radixValue radix n digits < 2 ^ 53) :
    chars.foldlM (fun value c => (digitValue? radix c).map fun d =>
      value * ofNat radix + ofNat d) (ofNat n) = some (ofNat (radixValue radix n digits)) := by
  induction chars generalizing n digits with
  | nil =>
    cases hdigits
    rfl
  | cons c chars ih =>
    rw [List.mapM_cons] at hdigits
    obtain ⟨d, hd, hdigits⟩ := Option.bind_eq_some_iff.mp hdigits
    obtain ⟨ds, hds, hdigits⟩ := Option.bind_eq_some_iff.mp hdigits
    cases hdigits
    have hstep : n * radix + d < 2 ^ 53 := lt_of_le_of_lt (le_radixValue hr _ ds) h
    have hn : n < 2 ^ 53 := lt_of_le_of_lt (le_radixValue hr n (d :: ds)) h
    rw [List.foldlM_cons, hd]
    show List.foldlM _ (ofNat n * ofNat radix + ofNat d) chars = _
    rw [ofNat_mul hn hr' (by omega), ofNat_add hstep]
    exact ih hds _ h

theorem readRadix?_eq (hr : 0 < radix) (hr' : radix < 2 ^ 53)
    (hdigits : chars.mapM (digitValue? radix) = some digits)
    (h : radixValue radix 0 digits < 2 ^ 53) :
    readRadix? radix chars = some (ofNat (radixValue radix 0 digits)) :=
  foldlM_radix hr hr' hdigits 0 h

/-! ## Whole doubles -/

theorem nat_eq_double : (9007199254740992 : Float) = double (2 ^ 52) 1 := by
  decide

theorem exponent_le_zero (hf : x.isFinite = true) (hs : signBit x = false)
    (hm : 0 < (toBinary x).mantissa) (hlt : x < 9007199254740992) : (toBinary x).exponent ≤ 0 := by
  have hrep := representable_toBinary hf hs
  have hbound : Representable (2 ^ 52) 1 := ⟨by decide, by decide, by decide, .inl (by decide)⟩
  have hcompare : ((double (toBinary x).mantissa (toBinary x).exponent).toModel.unpack.compare
      (double (2 ^ 52) 1).toModel.unpack == some .lt) = true := by
    rw [double_toBinary hf hs, ← nat_eq_double]
    exact of_decide_eq_true hlt
  rw [toModel_unpack_double hrep hm, toModel_unpack_double hbound (by decide)] at hcompare
  have hthen : ((compare (toBinary x).exponent 1).then (compare (toBinary x).mantissa (2 ^ 52)))
      = .lt := by
    simpa [UnpackedFloat.compare] using hcompare
  rcases Ordering.then_eq_lt.1 hthen with hexp | ⟨hexp, hman⟩
  · have := compare_lt_iff_lt.1 hexp
    omega
  · -- with this exponent all bits of the mantissa are used
    have hlow := compare_lt_iff_lt.1 hman
    have := hrep.normal
    omega

theorem eq_ofNat_of_isWhole (hf : x.isFinite = true) (hs : signBit x = false)
    (hwhole : isWhole x = true) (hlt : x < 9007199254740992) :
    ofNat (truncate x).toNat = x ∧ (truncate x).toNat < 2 ^ 53
      ∧ ((truncate x).toNat : ℚ) = (toBinary x).mantissa * 2 ^ (toBinary x).exponent := by
  have hrep := representable_toBinary hf hs
  have hnegative : (toBinary x).negative = false := by
    unfold toBinary
    dsimp only
    split <;> exact hs
  have htruncate : (truncate x).toNat = (scaleTwo (toBinary x).mantissa 1 (toBinary x).exponent).1
      / (scaleTwo (toBinary x).mantissa 1 (toBinary x).exponent).2 := by
    show (if (toBinary x).negative then _ else _ : Int).toNat = _
    rw [hnegative]
    rfl
  have hmod : (scaleTwo (toBinary x).mantissa 1 (toBinary x).exponent).1
      % (scaleTwo (toBinary x).mantissa 1 (toBinary x).exponent).2 = 0 := by
    simpa [isWhole] using hwhole
  have hdvd := Nat.dvd_of_mod_eq_zero hmod
  have hpos : 0 < (scaleTwo (toBinary x).mantissa 1 (toBinary x).exponent).2 :=
    scaleTwo_pos _ Nat.one_pos _
  have hposq : ((scaleTwo (toBinary x).mantissa 1 (toBinary x).exponent).2 : ℚ) ≠ 0 := by
    exact_mod_cast hpos.ne'
  have hvalue : ((truncate x).toNat : ℚ)
      = (toBinary x).mantissa * 2 ^ (toBinary x).exponent := by
    have hquotient := scaleTwo_div (toBinary x).mantissa 1 (toBinary x).exponent
    rw [Nat.cast_one, div_one] at hquotient
    rw [htruncate, ← hquotient, eq_div_iff hposq, ← Nat.cast_mul, Nat.div_mul_cancel hdvd]
  have hdouble := double_toBinary hf hs
  by_cases hm : (toBinary x).mantissa = 0
  · have hzero : (truncate x).toNat = 0 := by
      rw [hm] at hvalue
      norm_num at hvalue
      omega
    refine ⟨?_, ?_, hvalue⟩
    · rw [hzero, ofNat_zero, ← hdouble, hm, double_zero]
    · rw [hzero]
      decide
  · have hm : 0 < (toBinary x).mantissa := by omega
    have hexp := exponent_le_zero hf hs hm hlt
    have hn : 0 < (truncate x).toNat := by
      have : (0 : ℚ) < (truncate x).toNat := by
        rw [hvalue]
        have : (0 : ℚ) < (toBinary x).mantissa := by exact_mod_cast hm
        positivity
      exact_mod_cast this
    refine ⟨(ofNat_eq_of_mul hn hrep hvalue).trans hdouble, ?_, hvalue⟩
    have hlt53 : ((truncate x).toNat : ℚ) < 2 ^ 53 := by
      rw [hvalue]
      have hman : ((toBinary x).mantissa : ℚ) < 2 ^ 53 := by exact_mod_cast hrep.mantissa_lt
      have hpow : (2 : ℚ) ^ (toBinary x).exponent ≤ 1 :=
        zpow_le_one_of_nonpos₀ (by norm_num) hexp
      calc ((toBinary x).mantissa : ℚ) * 2 ^ (toBinary x).exponent
          ≤ (toBinary x).mantissa * 1 := by gcongr
        _ < 2 ^ 53 := by rwa [mul_one]
    exact_mod_cast hlt53

end Laconic.Number
