import Laconic.Proofs.Number.Nearest

/-!
# The shortest decimal reads back

The digits that are written for a double stand for a number that rounds to it,
so reading them gives the double.  A grid of seventeen digits is finer than the
distance of neighbouring doubles, which is why the search for digits ends.
-/

namespace Laconic.Number

variable {count m n : Nat} {q : Int} {k : Nat} {r : ℚ}

/-! ## Powers of ten -/

theorem tenPow_eq (k : Nat) : tenPow k = 10 ^ k := by
  induction k with
  | zero => rfl
  | succ k ih => rw [tenPow, ih, Nat.pow_succ, Nat.mul_comm]

theorem powTen_pos (e : Int) : 0 < (powTen e).1 ∧ 0 < (powTen e).2 := by
  cases e with
  | ofNat k | negSucc k => simp [powTen, tenPow_eq]

theorem powTen_div (e : Int) : ((powTen e).1 : ℚ) / (powTen e).2 = 10 ^ e := by
  cases e with
  | ofNat k => simp [powTen, tenPow_eq]
  | negSucc k => simp [powTen, tenPow_eq, zpow_negSucc]

theorem lt_of_zpow_ten_lt {a b : Int} (h : (10 : ℚ) ^ a < 10 ^ b) : a < b :=
  (zpow_lt_zpow_iff_right₀ (by norm_num)).1 h

/-! ## Numbers of digits -/

theorem digitCount_pos (n : Nat) : 0 < digitCount n := Nat.length_toDigits_pos

theorem lt_tenPow_digitCount (n : Nat) : n < 10 ^ digitCount n :=
  (Nat.length_toDigits_le_iff (by decide) (digitCount_pos n)).1 (Nat.le_refl _)

theorem tenPow_le_of_pos (hn : 0 < n) : 10 ^ (digitCount n - 1) ≤ n := by
  by_cases h1 : digitCount n = 1
  · rw [h1]
    exact hn
  · have hpos := digitCount_pos n
    by_contra hlt
    have := (Nat.length_toDigits_le_iff (b := 10) (k := digitCount n - 1) (by decide) (by omega)).2
      (by omega : n < 10 ^ (digitCount n - 1))
    unfold digitCount at *
    omega

theorem digitCount_eq (hk : 0 < k) (hlow : 10 ^ (k - 1) ≤ n) (hhigh : n < 10 ^ k) :
    digitCount n = k := by
  have hle : digitCount n ≤ k := (Nat.length_toDigits_le_iff (by decide) hk).2 hhigh
  have hlt := lt_tenPow_digitCount n
  have : k - 1 < digitCount n :=
    (Nat.pow_lt_pow_iff_right (by decide : 1 < 10)).1 (lt_of_le_of_lt hlow hlt)
  omega

theorem decade_of_pos (hn : 0 < n) (e : Int) :
    (10 : ℚ) ^ (e + digitCount n - 1) ≤ n * 10 ^ e
      ∧ (n : ℚ) * 10 ^ e < 10 ^ (e + digitCount n) := by
  have hpos := digitCount_pos n
  have h1 : ((10 ^ (digitCount n - 1) : Nat) : ℚ) ≤ n := by exact_mod_cast tenPow_le_of_pos hn
  have h2 : (n : ℚ) < ((10 ^ digitCount n : Nat) : ℚ) := by exact_mod_cast lt_tenPow_digitCount n
  push_cast at h1 h2
  rw [← zpow_natCast] at h1 h2
  constructor
  · calc (10 : ℚ) ^ (e + digitCount n - 1)
        = 10 ^ ((digitCount n - 1 : Nat) : Int) * 10 ^ e := by
          rw [← zpow_add₀ (by norm_num)]
          congr 1
          omega
      _ ≤ n * 10 ^ e := by gcongr
  · calc (n : ℚ) * 10 ^ e < 10 ^ (digitCount n : Int) * 10 ^ e := by gcongr
      _ = 10 ^ (e + digitCount n) := by
          rw [← zpow_add₀ (by norm_num), add_comm]

theorem decimalExponent_spec {num den : Nat} (hn : 0 < num) (hd : 0 < den) :
    (10 : ℚ) ^ decimalExponent num den ≤ num / den
      ∧ (num : ℚ) / den < 10 ^ (decimalExponent num den + 1) := by
  have hdq : (0 : ℚ) < den := by exact_mod_cast hd
  unfold decimalExponent
  by_cases hle : den ≤ num
  · rw [if_pos hle]
    have hpos : 0 < num / den := Nat.div_pos hle hd
    have hlow : 10 ^ (digitCount (num / den) - 1) * den ≤ num :=
      (Nat.le_div_iff_mul_le hd).1 (tenPow_le_of_pos hpos)
    have hhigh : num < 10 ^ digitCount (num / den) * den :=
      (Nat.div_lt_iff_lt_mul hd).1 (lt_tenPow_digitCount _)
    have hcount := digitCount_pos (num / den)
    generalize digitCount (num / den) = k at *
    have h1 : (10 : ℚ) ^ ((k : Int) - 1) = 10 ^ (k - 1) := by
      rw [← zpow_natCast]
      congr 1
      omega
    have h2 : (10 : ℚ) ^ ((k : Int) - 1 + 1) = 10 ^ k := by
      rw [← zpow_natCast]
      congr 1
      omega
    rw [h1, h2, le_div_iff₀ hdq, div_lt_iff₀ hdq]
    exact ⟨by exact_mod_cast hlow, by exact_mod_cast hhigh⟩
  · rw [if_neg hle]
    -- The quotient turned round, rounded up, is one more than `k`.
    have hc : (den + num - 1) / num * num ≤ den + num - 1 := Nat.div_mul_le_self _ _
    have hc' : den + num - 1 < ((den + num - 1) / num + 1) * num :=
      (Nat.div_lt_iff_lt_mul hn).1 (Nat.lt_succ_self _)
    have htwo : 2 ≤ (den + num - 1) / num := (Nat.le_div_iff_mul_le hn).2 (by omega)
    generalize (den + num - 1) / num = c at *
    obtain ⟨k, rfl⟩ : ∃ k, c = k + 1 := ⟨c - 1, by omega⟩
    have hk : 0 < k := by omega
    have hlow : k * num < den := by
      have : (k + 1) * num = k * num + num := by ring
      omega
    have hhigh : den ≤ (k + 1) * num := by
      have : (k + 1 + 1) * num = (k + 1) * num + num := by ring
      omega
    have hk1 := tenPow_le_of_pos hk
    have hk2 := lt_tenPow_digitCount k
    have hcount := digitCount_pos k
    simp only [Nat.add_sub_cancel]
    generalize digitCount k = j at *
    have h1 : (10 : ℚ) ^ (-(j : Int)) * 10 ^ j = 1 := by
      rw [← zpow_natCast, ← zpow_add₀ (by norm_num)]
      simp
    have h2 : (10 : ℚ) ^ (-(j : Int) + 1) * 10 ^ (j - 1) = 1 := by
      rw [← zpow_natCast, ← zpow_add₀ (by norm_num)]
      rw [show -(j : Int) + 1 + ((j - 1 : Nat) : Int) = 0 by omega]
      simp
    have hd1 : den ≤ 10 ^ j * num := le_trans hhigh (Nat.mul_le_mul_right num hk2)
    have hd2 : 10 ^ (j - 1) * num < den := lt_of_le_of_lt (Nat.mul_le_mul_right num hk1) hlow
    have hd1' : (den : ℚ) ≤ 10 ^ j * num := by exact_mod_cast hd1
    have hd2' : (10 : ℚ) ^ (j - 1) * num < den := by exact_mod_cast hd2
    rw [le_div_iff₀ hdq, div_lt_iff₀ hdq]
    constructor
    · calc (10 : ℚ) ^ (-(j : Int)) * den ≤ 10 ^ (-(j : Int)) * (10 ^ j * num) := by gcongr
        _ = num := by rw [← mul_assoc, h1, one_mul]
    · calc (num : ℚ) = 10 ^ (-(j : Int) + 1) * (10 ^ (j - 1) * num) := by
            rw [← mul_assoc, h2, one_mul]
        _ < 10 ^ (-(j : Int) + 1) * den := by gcongr

/-! ## Reading decimals -/

theorem two_zpow_le_ten_zpow : (2 : ℚ) ^ (1200 : Int) ≤ 10 ^ (400 : Int) := by
  rw [show (1200 : Int) = 3 * 400 from rfl, zpow_mul]
  exact zpow_le_zpow_left₀ (by norm_num) (by norm_num) (by norm_num)

/-- What rounds to a finite double other than zero is neither huge nor tiny. -/
theorem RoundsTo.bounds (hr : RoundsTo m q r) (h : Representable m q) (hm : 0 < m) :
    (10 : ℚ) ^ (-400 : Int) < r ∧ r < 10 ^ (400 : Int) := by
  have hlow := hr.low
  have hhigh := hr.high
  have hmq : (m : ℚ) + 1 ≤ 2 ^ 53 := by exact_mod_cast h.mantissa_lt
  simp only [quarters] at hlow hhigh
  have htwo : 2 ≤ 4 * m - if m = twoPow 52 ∧ minExponent < q then 1 else 2 := by
    split <;> omega
  have htwo' : (2 : ℚ) ≤
      ((4 * m - if m = twoPow 52 ∧ minExponent < q then 1 else 2 : Nat) : ℚ) := by
    exact_mod_cast htwo
  have hhigh' : r * 2 ^ (2 - q) ≤ 4 * m + 2 := by simpa using hhigh
  have hrw : r = r * 2 ^ (2 - q) * 2 ^ (q - 2) := by
    rw [mul_assoc, ← zpow_add₀ (by norm_num)]
    norm_num
  generalize r * 2 ^ (2 - q) = w at *
  have hq1 : (2 : ℚ) ^ (-1076 : Int) ≤ 2 ^ (q - 2) :=
    zpow_le_zpow_right₀ (by norm_num) (by have := h.le_exponent; omega)
  have hq2 : (2 : ℚ) ^ (q - 2) ≤ 2 ^ (969 : Int) :=
    zpow_le_zpow_right₀ (by norm_num) (by have := h.exponent_le; omega)
  have hw1 : (2 : ℚ) ≤ w := le_trans htwo' hlow
  have hw2 : w ≤ 2 ^ (56 : Int) := by
    norm_num at hmq ⊢
    linarith
  rw [hrw]
  constructor
  · calc (10 : ℚ) ^ (-400 : Int) ≤ 2 ^ (-1200 : Int) := by
          exact inv_anti₀ (by positivity) two_zpow_le_ten_zpow
      _ < 2 ^ (-1075 : Int) := zpow_lt_zpow_right₀ (by norm_num) (by norm_num)
      _ = 2 * 2 ^ (-1076 : Int) := by
          rw [show (-1075 : Int) = 1 + -1076 from rfl, zpow_add₀ (by norm_num), zpow_one]
      _ ≤ w * 2 ^ (q - 2) := by gcongr
  · calc w * 2 ^ (q - 2) ≤ 2 ^ (56 : Int) * 2 ^ (969 : Int) := by gcongr
      _ = 2 ^ (1025 : Int) := by rw [← zpow_add₀ (by norm_num)]; rfl
      _ < 2 ^ (1200 : Int) := zpow_lt_zpow_right₀ (by norm_num) (by norm_num)
      _ ≤ 10 ^ (400 : Int) := two_zpow_le_ten_zpow

theorem RoundsTo.pos (hr : RoundsTo m q r) (h : Representable m q) (hm : 0 < m) : 0 < r :=
  lt_trans (by positivity) (hr.bounds h hm).1

theorem ofDecimal_eq_double {e : Int} (hn : 0 < n) (hm : 0 < m) (h : Representable m q)
    (hr : RoundsTo m q (n * 10 ^ e)) : ofDecimal n e = double m q := by
  obtain ⟨hlow, hhigh⟩ := decade_of_pos hn e
  obtain ⟨hb1, hb2⟩ := hr.bounds h hm
  have hsize : e + digitCount n ≤ 400 := by
    have := lt_of_zpow_ten_lt (lt_of_le_of_lt hlow hb2)
    omega
  have hsize' : -400 ≤ e + digitCount n := by
    have := lt_of_zpow_ten_lt (lt_trans hb1 hhigh)
    omega
  have hpos := powTen_pos e
  have hdiv := powTen_div e
  unfold ofDecimal
  rw [if_neg (by omega)]
  simp only
  rw [if_neg (by omega), if_neg (by omega)]
  refine nearest_eq_double (Nat.mul_pos hn hpos.1) hpos.2 h ?_
  have hval : ((n * (powTen e).1 : Nat) : ℚ) / (powTen e).2 = n * 10 ^ e := by
    rw [← hdiv]
    push_cast
    ring
  rw [hval]
  exact hr

/-! ## The grid of a number of digits -/

/-- The number that digits and a point stand for. -/
def Decimal.value (d : Decimal) : ℚ := d.digits * 10 ^ (d.point - digitCount d.digits)

def leadingDigit (m : Nat) (q : Int) : Int :=
  decimalExponent (4 * m * (scaleTwo 1 1 (q - 2)).1) (scaleTwo 1 1 (q - 2)).2

theorem value_eq_scaleTwo (m : Nat) (q : Int) :
    ((4 * m * (scaleTwo 1 1 (q - 2)).1 : Nat) : ℚ) / (scaleTwo 1 1 (q - 2)).2 = m * 2 ^ q := by
  have h := scaleTwo_div 1 1 (q - 2)
  calc ((4 * m * (scaleTwo 1 1 (q - 2)).1 : Nat) : ℚ) / (scaleTwo 1 1 (q - 2)).2
      = 4 * m * (((scaleTwo 1 1 (q - 2)).1 : ℚ) / (scaleTwo 1 1 (q - 2)).2) := by
        push_cast
        ring
    _ = m * (4 * 2 ^ (q - 2)) := by
        rw [h]
        ring
    _ = m * 2 ^ q := by rw [← four_mul_zpow]

theorem scaleTwo_one_pos (e : Int) : 0 < (scaleTwo 1 1 e).1 := by
  cases e with
  | ofNat k => simp [scaleTwo, twoPow_eq]
  | negSucc k => simp [scaleTwo]

theorem leadingDigit_spec (hm : 0 < m) (q : Int) :
    (10 : ℚ) ^ leadingDigit m q ≤ m * 2 ^ q ∧ (m : ℚ) * 2 ^ q < 10 ^ (leadingDigit m q + 1) := by
  have hnum : 0 < 4 * m * (scaleTwo 1 1 (q - 2)).1 :=
    Nat.mul_pos (by omega) (scaleTwo_one_pos _)
  have h := decimalExponent_spec hnum (scaleTwo_pos 1 Nat.one_pos (q - 2))
  rwa [value_eq_scaleTwo] at h

def gridStep (m : Nat) (q : Int) (count : Nat) : ℚ := 10 ^ (leadingDigit m q + 1 - count)

section

variable (m : Nat) (q : Int) (count : Nat)

theorem gridStep_pos : 0 < gridStep m q count := by
  unfold gridStep
  positivity

def wholeStep (m : Nat) (q : Int) (count : Nat) : Nat :=
  (scaleTwo 1 1 (q - 2)).2 * (powTen (leadingDigit m q + 1 - count)).1

/-- A number of quarters in that unit. -/
def wholeQuarters (m : Nat) (q : Int) (count n : Nat) : Nat :=
  n * (scaleTwo 1 1 (q - 2)).1 * (powTen (leadingDigit m q + 1 - count)).2

theorem wholeStep_pos : 0 < wholeStep m q count :=
  Nat.mul_pos (scaleTwo_pos 1 Nat.one_pos _) (powTen_pos _).1

theorem exists_grid_unit : ∃ u : ℚ, 0 < u
    ∧ (wholeStep m q count : ℚ) = gridStep m q count * u
    ∧ ∀ n : Nat, (wholeQuarters m q count n : ℚ) = n * 2 ^ (q - 2) * u := by
  unfold wholeStep wholeQuarters gridStep
  generalize leadingDigit m q + 1 - count = e
  have hwhole : (0 : ℚ) < (scaleTwo 1 1 (q - 2)).2 := by
    exact_mod_cast scaleTwo_pos 1 Nat.one_pos (q - 2)
  have hden : (0 : ℚ) < (powTen e).2 := by exact_mod_cast (powTen_pos e).2
  have hunit : ((scaleTwo 1 1 (q - 2)).1 : ℚ) = 2 ^ (q - 2) * (scaleTwo 1 1 (q - 2)).2 := by
    have h := scaleTwo_div 1 1 (q - 2)
    rw [div_eq_iff hwhole.ne'] at h
    simpa using h
  have hten : ((powTen e).1 : ℚ) = 10 ^ e * (powTen e).2 := by
    rw [← powTen_div, div_mul_cancel₀ _ hden.ne']
  refine ⟨(scaleTwo 1 1 (q - 2)).2 * (powTen e).2, by positivity, ?_, ?_⟩
  · push_cast
    rw [hten]
    ring
  · intro n
    push_cast
    rw [hunit]
    ring

def readsBack (m : Nat) (q : Int) (count c : Nat) : Bool :=
  let (low, _, high) := quarters m q
  if m % 2 = 0 then
    wholeQuarters m q count low ≤ c * wholeStep m q count
      && c * wholeStep m q count ≤ wholeQuarters m q count high
  else
    wholeQuarters m q count low < c * wholeStep m q count
      && c * wholeStep m q count < wholeQuarters m q count high

/-- The last point of a grid that is not above the number. -/
def gridFloor (m : Nat) (q : Int) (count : Nat) : Nat :=
  wholeQuarters m q count (4 * m) / wholeStep m q count

/-- The points of a grid next to the number, the nearer one first. -/
def gridPoints (m : Nat) (q : Int) (count : Nat) : List Nat :=
  if 2 * (wholeQuarters m q count (4 * m) % wholeStep m q count) < wholeStep m q count then
    [gridFloor m q count, gridFloor m q count + 1]
  else [gridFloor m q count + 1, gridFloor m q count]

theorem decimalOfLength?_eq :
    decimalOfLength? m q count = ((gridPoints m q count).find? (readsBack m q count)).map fun c =>
      if c = tenPow count then ⟨1, leadingDigit m q + 2⟩ else ⟨c, leadingDigit m q + 1⟩ := rfl

variable {m q count} in
theorem readsBack_iff {c : Nat} :
    readsBack m q count c = true ↔ RoundsTo m q (c * gridStep m q count) := by
  obtain ⟨u, hu, hstep, hquarters⟩ := exists_grid_unit m q count
  have htwo : (2 : ℚ) ^ (q - 2) = (2 ^ (2 - q))⁻¹ := by rw [← zpow_neg, neg_sub]
  have hpos : (0 : ℚ) < 2 ^ (2 - q) := by positivity
  have hle : ∀ n : Nat, wholeQuarters m q count n ≤ c * wholeStep m q count
      ↔ (n : ℚ) ≤ c * gridStep m q count * 2 ^ (2 - q) := by
    intro n
    rw [← Nat.cast_le (α := ℚ), hquarters, Nat.cast_mul, hstep, ← mul_assoc,
      mul_le_mul_iff_of_pos_right hu, htwo, ← div_eq_mul_inv, div_le_iff₀ hpos]
  have hge : ∀ n : Nat, c * wholeStep m q count ≤ wholeQuarters m q count n
      ↔ c * gridStep m q count * 2 ^ (2 - q) ≤ (n : ℚ) := by
    intro n
    rw [← Nat.cast_le (α := ℚ), hquarters, Nat.cast_mul, hstep, ← mul_assoc,
      mul_le_mul_iff_of_pos_right hu, htwo, ← div_eq_mul_inv, le_div_iff₀ hpos]
  unfold readsBack
  simp only
  split
  · next heven =>
    rw [Bool.and_eq_true, decide_eq_true_eq, decide_eq_true_eq, hle, hge]
    exact ⟨fun h => ⟨h.1, h.2, .inl heven⟩, fun h => ⟨h.low, h.high⟩⟩
  · next hodd =>
    rw [Bool.and_eq_true, decide_eq_true_eq, decide_eq_true_eq, ← not_le, ← not_le, hle, hge,
      not_le, not_le]
    exact ⟨fun h => ⟨h.1.le, h.2.le, .inr h⟩, fun h => h.inside.resolve_left hodd⟩

theorem exists_rest : ∃ rest : ℚ, 0 ≤ rest
    ∧ rest < gridStep m q count
    ∧ (m : ℚ) * 2 ^ q = gridFloor m q count * gridStep m q count + rest
    ∧ (2 * (wholeQuarters m q count (4 * m) % wholeStep m q count) < wholeStep m q count
      ↔ 2 * rest < gridStep m q count) := by
  obtain ⟨u, hu, hstep, hquarters⟩ := exists_grid_unit m q count
  have hdiv := Nat.div_add_mod (wholeQuarters m q count (4 * m)) (wholeStep m q count)
  have hlt := Nat.mod_lt (wholeQuarters m q count (4 * m)) (wholeStep_pos m q count)
  have hvalue : ((4 * m : Nat) : ℚ) * 2 ^ (q - 2) = m * 2 ^ q := by
    rw [four_mul_zpow q]
    push_cast
    ring
  rw [← gridFloor] at hdiv
  generalize wholeQuarters m q count (4 * m) % wholeStep m q count = r at *
  have hsum : (m : ℚ) * 2 ^ q * u = gridStep m q count * u * gridFloor m q count + r := by
    rw [← hvalue, ← hquarters, ← hstep, ← hdiv]
    push_cast
    ring
  have hr : (r : ℚ) = r / u * u := by rw [div_mul_cancel₀ _ hu.ne']
  refine ⟨r / u, by positivity, ?_, ?_, ?_⟩
  · rw [div_lt_iff₀ hu, ← hstep]
    exact_mod_cast hlt
  · apply mul_right_cancel₀ hu.ne'
    rw [hsum, add_mul, ← hr]
    ring
  · rw [← Nat.cast_lt (α := ℚ), Nat.cast_mul, hstep, mul_div_assoc', div_lt_iff₀ hu]
    norm_num

theorem exists_nearer : ∃ c other,
    gridPoints m q count = [c, other]
      ∧ |(c : ℚ) * gridStep m q count - m * 2 ^ q| ≤ gridStep m q count / 2 := by
  obtain ⟨rest, hrest, hlt, hvalue, hiff⟩ := exists_rest m q count
  unfold gridPoints
  split
  · next h =>
    refine ⟨_, _, rfl, ?_⟩
    rw [hvalue, abs_le]
    have := hiff.1 h
    constructor <;> linarith
  · next h =>
    refine ⟨_, _, rfl, ?_⟩
    rw [hvalue, abs_le]
    have := mt hiff.2 h
    push_cast
    constructor <;> linarith

end

theorem half_gridStep_lt (hm : 0 < m) (q : Int) :
    gridStep m q 17 / 2 * 2 ^ (2 - q) ≤ m * (2 / 10 ^ 16) := by
  have hlead := (leadingDigit_spec hm q).1
  have hstep : gridStep m q 17 = 10 ^ leadingDigit m q / 10 ^ 16 := by
    unfold gridStep
    rw [show leadingDigit m q + 1 - ((17 : Nat) : Int) = leadingDigit m q - 16 by ring,
      zpow_sub₀ (by norm_num)]
    norm_num
  have htwo : (2 : ℚ) ^ q * 2 ^ (2 - q) = 4 := by
    rw [← zpow_add₀ (by norm_num)]
    norm_num
  calc gridStep m q 17 / 2 * 2 ^ (2 - q)
      ≤ m * 2 ^ q / 10 ^ 16 / 2 * 2 ^ (2 - q) := by
        rw [hstep]
        gcongr
    _ = m / 10 ^ 16 / 2 * (2 ^ q * 2 ^ (2 - q)) := by ring
    _ = m * (2 / 10 ^ 16) := by
        rw [htwo]
        ring

theorem roundsTo_of_nearer (h : Representable m q) (hm : 0 < m)
    (hr : |r - m * 2 ^ q| ≤ gridStep m q 17 / 2) : RoundsTo m q r := by
  have hhalf := half_gridStep_lt hm q
  have htwo : (0 : ℚ) < 2 ^ (2 - q) := by positivity
  have hsmall : (m : ℚ) * (2 / 10 ^ 16) < 2 := by
    have hmq : (m : ℚ) < 2 ^ 53 := by exact_mod_cast h.mantissa_lt
    linarith
  have hvalue : (m : ℚ) * 2 ^ q * 2 ^ (2 - q) = 4 * m := by
    rw [mul_assoc, ← zpow_add₀ (by norm_num)]
    norm_num
    ring
  obtain ⟨hlow, hhigh⟩ := abs_le.1 hr
  have hlow' : 4 * m - (m : ℚ) * (2 / 10 ^ 16) ≤ r * 2 ^ (2 - q) := by
    have := mul_le_mul_of_nonneg_right hlow htwo.le
    linarith
  have hhigh' : r * 2 ^ (2 - q) ≤ 4 * m + (m : ℚ) * (2 / 10 ^ 16) := by
    have := mul_le_mul_of_nonneg_right hhigh htwo.le
    linarith
  have hstrictHigh : r * 2 ^ (2 - q) < ((quarters m q).2.2 : ℚ) := by
    have hcast : ((quarters m q).2.2 : ℚ) = 4 * m + 2 := by
      simp only [quarters]
      push_cast
      ring
    linarith
  have hstrictLow : ((quarters m q).1 : ℚ) < r * 2 ^ (2 - q) := by
    by_cases hpower : m = twoPow 52 ∧ minExponent < q
    · have hcast : ((quarters m q).1 : ℚ) = 4 * m - 1 := by
        simp only [quarters, if_pos hpower]
        rw [Nat.cast_sub (by omega)]
        push_cast
        ring
      have hm52 : (m : ℚ) = 2 ^ 52 := by
        rw [hpower.1, twoPow_eq]
        norm_num
      linarith
    · have hcast : ((quarters m q).1 : ℚ) = 4 * m - 2 := by
        simp only [quarters, if_neg hpower]
        rw [Nat.cast_sub (by omega)]
        push_cast
        ring
      linarith
  exact ⟨hstrictLow.le, hstrictHigh.le, .inr ⟨hstrictLow, hstrictHigh⟩⟩

theorem isSome_decimalOfLength?
    (h : ∀ c : Nat, |(c : ℚ) * gridStep m q count - m * 2 ^ q| ≤ gridStep m q count / 2 →
      RoundsTo m q (c * gridStep m q count)) : (decimalOfLength? m q count).isSome = true := by
  obtain ⟨c, other, hpoints, hnear⟩ := exists_nearer m q count
  have hreads : readsBack m q count c = true := readsBack_iff.2 (h c hnear)
  rw [decimalOfLength?_eq, hpoints, List.find?_cons_of_pos hreads]
  rfl

/-- The points of a grid next to the number have as many digits as the grid, or are the
next power of ten. -/
theorem bounds_of_mem_gridPoints (hm : 0 < m) {c : Nat} (hcount : 0 < count)
    (hc : c ∈ gridPoints m q count) : 10 ^ (count - 1) ≤ c ∧ c ≤ 10 ^ count := by
  obtain ⟨rest, hrest, hlt, hvalue, _⟩ := exists_rest m q count
  obtain ⟨hlow, hhigh⟩ := leadingDigit_spec hm q
  have hstep := gridStep_pos m q count
  have hlead : (10 : ℚ) ^ leadingDigit m q = 10 ^ (count - 1) * gridStep m q count := by
    unfold gridStep
    rw [← zpow_natCast, ← zpow_add₀ (by norm_num)]
    congr 1
    omega
  have hlead' : (10 : ℚ) ^ (leadingDigit m q + 1) = 10 ^ count * gridStep m q count := by
    unfold gridStep
    rw [← zpow_natCast, ← zpow_add₀ (by norm_num)]
    congr 1
    omega
  have hfloor : 10 ^ (count - 1) ≤ gridFloor m q count := by
    have : (10 : ℚ) ^ (count - 1) < gridFloor m q count + 1 := by
      apply lt_of_mul_lt_mul_right _ hstep.le
      linarith
    have hnat : 10 ^ (count - 1) < gridFloor m q count + 1 := by exact_mod_cast this
    omega
  have hfloor' : gridFloor m q count < 10 ^ count := by
    have : (gridFloor m q count : ℚ) < 10 ^ count := by
      apply lt_of_mul_lt_mul_right _ hstep.le
      linarith
    exact_mod_cast this
  have hcases : c = gridFloor m q count ∨ c = gridFloor m q count + 1 := by
    unfold gridPoints at hc
    split at hc <;> simp at hc <;> omega
  omega

theorem decimalOfLength?_spec (hm : 0 < m) (hcount : 0 < count) {d : Decimal}
    (h : decimalOfLength? m q count = some d) :
    0 < d.digits ∧ RoundsTo m q d.value ∧ ∃ c : Nat, d.value = c * gridStep m q count := by
  rw [decimalOfLength?_eq, Option.map_eq_some_iff] at h
  obtain ⟨c, hc, hd⟩ := h
  have hreads := readsBack_iff.1 (List.find?_some hc)
  obtain ⟨hlow, hhigh⟩ := bounds_of_mem_gridPoints hm hcount (List.mem_of_find?_eq_some hc)
  split at hd
  · next hpower =>
    subst hd
    have hvalue : Decimal.value ⟨1, leadingDigit m q + 2⟩ = c * gridStep m q count := by
      have hone : digitCount 1 = 1 := rfl
      have hc : (c : ℚ) = 10 ^ (count : Int) := by
        rw [hpower, tenPow_eq]
        norm_num
      simp only [Decimal.value, gridStep, hone]
      rw [hc, ← zpow_add₀ (by norm_num : (10 : ℚ) ≠ 0), Nat.cast_one, one_mul]
      congr 1
      omega
    exact ⟨Nat.one_pos, hvalue ▸ hreads, c, hvalue⟩
  · next hpower =>
    subst hd
    rw [tenPow_eq] at hpower
    have hdigits : digitCount c = count := digitCount_eq hcount hlow (by omega)
    have hvalue : Decimal.value ⟨c, leadingDigit m q + 1⟩ = c * gridStep m q count := by
      simp only [Decimal.value, gridStep, hdigits]
    exact ⟨lt_of_lt_of_le (Nat.pow_pos (by decide)) hlow, hvalue ▸ hreads, c, hvalue⟩

theorem exists_shortestDecimal {j : Nat} (hj : j < 17)
    (h : (decimalOfLength? m q (j + 1)).isSome = true) :
    ∃ i ≤ j, decimalOfLength? m q (i + 1) = some (shortestDecimal m q) := by
  have hfirst : ((List.range (j + 1)).findSome? fun i => decimalOfLength? m q (i + 1)).isSome :=
    List.findSome?_isSome_iff.mpr ⟨j, by simp, h⟩
  obtain ⟨d, hd⟩ := Option.isSome_iff_exists.mp hfirst
  obtain ⟨i, hi, hdi⟩ := List.exists_of_findSome?_eq_some hd
  have hrange : List.range 17
      = List.range (j + 1) ++ (List.range (16 - j)).map (j + 1 + ·) := by
    rw [← List.range_add]
    congr 1
    omega
  unfold shortestDecimal
  rw [hrange, List.findSome?_append, hd]
  exact ⟨i, by simpa [Nat.lt_succ_iff] using hi, hdi⟩

theorem shortestDecimal_spec (h : Representable m q) (hm : 0 < m) :
    0 < (shortestDecimal m q).digits ∧ RoundsTo m q (shortestDecimal m q).value := by
  obtain ⟨i, _, hd⟩ := exists_shortestDecimal (j := 16) (by decide)
    (isSome_decimalOfLength? fun _ => roundsTo_of_nearer h hm)
  obtain ⟨hdigits, hr, _⟩ := decimalOfLength?_spec hm (Nat.succ_pos i) hd
  exact ⟨hdigits, hr⟩

/-! ## Whole numbers -/

/-- A double without places after the point is the nearest one to no other whole number. -/
theorem eq_of_roundsTo (hm : 0 < m) (hq : q ≤ 0) (hn : (n : ℚ) = m * 2 ^ q) (hk : RoundsTo m q k) :
    k = n := by
  have hfour : (4 : ℚ) ≤ 2 ^ (2 - q) := by
    calc (4 : ℚ) = 2 ^ (2 : Int) := by norm_num
      _ ≤ 2 ^ (2 - q) := zpow_le_zpow_right₀ (by norm_num) (by omega)
  have hvalue : (n : ℚ) * 2 ^ (2 - q) = 4 * m := by
    rw [hn, mul_assoc, ← zpow_add₀ (by norm_num)]
    norm_num
    ring
  have hlow : (4 * m : ℚ) ≤ k * 2 ^ (2 - q) + 2 := by
    have hquarter : 4 * m ≤ (quarters m q).1 + 2 := by
      simp only [quarters]
      split <;> omega
    have hcast : (4 * m : ℚ) ≤ (quarters m q).1 + 2 := by exact_mod_cast hquarter
    have := hk.low
    linarith
  have hhigh : (k : ℚ) * 2 ^ (2 - q) ≤ 4 * m + 2 := hk.high.trans_eq (by simp [quarters])
  rcases Nat.lt_trichotomy k n with h | h | h
  · have : (k : ℚ) + 1 ≤ n := by exact_mod_cast h
    nlinarith
  · exact h
  · have : (n : ℚ) + 1 ≤ k := by exact_mod_cast h
    nlinarith

theorem value_shortestDecimal (hm : 0 < m) (hq : q ≤ 0) (hn : (n : ℚ) = m * 2 ^ q)
    (hpos : 0 < n) (hlt : n < 2 ^ 53) : (shortestDecimal m q).value = n := by
  obtain ⟨hlow, hhigh⟩ := leadingDigit_spec hm q
  rw [← hn] at hlow hhigh
  obtain ⟨j, hj⟩ : ∃ j : Nat, leadingDigit m q = j := by
    refine Int.eq_ofNat_of_zero_le ?_
    by_contra hneg
    have hone : (10 : ℚ) ^ (leadingDigit m q + 1) ≤ 1 :=
      zpow_le_one_of_nonpos₀ (by norm_num) (by omega)
    have : (1 : ℚ) ≤ n := by exact_mod_cast hpos
    linarith
  have hj17 : j < 17 := by
    rw [hj, zpow_natCast] at hlow
    have hpow : 10 ^ j ≤ n := by exact_mod_cast hlow
    by_contra hge
    have := Nat.pow_le_pow_right (n := 10) (by decide) (show 17 ≤ j by omega)
    omega
  -- the points of the grid of this many digits are the whole numbers
  have hstep : ∀ i ≤ j, gridStep m q (i + 1) = ((10 ^ (j - i) : Nat) : ℚ) := by
    intro i hi
    unfold gridStep
    rw [hj, Nat.cast_pow, ← zpow_natCast]
    congr 1
    omega
  have hsome : (decimalOfLength? m q (j + 1)).isSome = true := by
    refine isSome_decimalOfLength? fun c hc => ?_
    rw [hstep j le_rfl, ← hn] at hc
    simp only [Nat.sub_self, Nat.pow_zero, Nat.cast_one, mul_one, abs_le] at hc
    have hcn : c = n := by
      have hle : (c : ℚ) < n + 1 := by linarith
      have hge : (n : ℚ) < c + 1 := by linarith
      norm_cast at hle hge
      omega
    rw [hstep j le_rfl, hcn, hn]
    simpa using roundsTo_self hm q
  obtain ⟨i, hi, hd⟩ := exists_shortestDecimal hj17 hsome
  obtain ⟨_, hr, c, hvalue⟩ := decimalOfLength?_spec hm (Nat.succ_pos i) hd
  rw [hstep i hi, ← Nat.cast_mul] at hvalue
  rw [hvalue] at hr ⊢
  rw [eq_of_roundsTo hm hq hn hr]

end Laconic.Number
