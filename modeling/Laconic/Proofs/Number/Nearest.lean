import Laconic.Proofs.Number.Double
import Mathlib.Algebra.Order.Field.Power
import Mathlib.Data.Rat.Cast.Order
import Mathlib.Tactic.FieldSimp
import Mathlib.Tactic.NormNum
import Mathlib.Tactic.Positivity
import Mathlib.Tactic.Ring

/-!
# The nearest double

`nearest` rounds a quotient of two whole numbers to a mantissa of 53 bits, or
fewer at the least exponent.  Here its answer is tied to the numbers that lie
closest to a double: `RoundsTo m q r` says that `r` lies between the midpoints
to the neighbours of `m * 2 ^ q`, the ends included if `m` is even.

The one case that needs thought is a power of two: below it doubles lie twice
as dense, and a quotient there is rounded at the exponent below, up to a
mantissa of 54 bits, whose pattern is that of the power.
-/

namespace Laconic.Number

variable {den k num : Nat} {m n : Nat} {e q : Int} {t : ℚ}

/-! ## Scaled quotients -/

theorem scaleTwo_pos (num : Nat) (hd : 0 < den) (e : Int) : 0 < (scaleTwo num den e).2 := by
  cases e with
  | ofNat k => exact hd
  | negSucc k => exact Nat.mul_pos hd (by simp [twoPow])

theorem scaleTwo_div (num den : Nat) (e : Int) :
    ((scaleTwo num den e).1 : ℚ) / (scaleTwo num den e).2 = num / den * 2 ^ e := by
  cases e with
  | ofNat k =>
    simp [scaleTwo, twoPow_eq]
    ring
  | negSucc k =>
    simp [scaleTwo, twoPow_eq, zpow_negSucc]
    ring

def leadingExponent (num den : Nat) : Int :=
  let gap : Int := (Nat.log2 num : Int) - Nat.log2 den
  let (n, d) := scaleTwo num den (53 - gap)
  if n / d < twoPow 53 then gap - 53 else gap - 52

theorem nearest_eq_ofBits (den : Nat) (hn : num ≠ 0) :
    let e := max (leadingExponent num den) (-1074)
    nearest num den = ofBits (min (bitPattern (roundDiv (scaleTwo num den (-e)).1
      (scaleTwo num den (-e)).2) e) infinityBits) := by
  intro e
  have he : e = if leadingExponent num den < -1074 then -1074 else leadingExponent num den := by
    simp only [e]
    split <;> omega
  unfold nearest
  rw [if_neg hn, he]
  rfl

theorem zpow_log2_le (hn : n ≠ 0) :
    (2 : ℚ) ^ (n.log2 : Int) ≤ n ∧ (n : ℚ) < 2 ^ ((n.log2 : Int) + 1) := by
  have h1 : 2 ^ n.log2 ≤ n := Nat.log2_self_le hn
  have h2 : n < 2 ^ (n.log2 + 1) := Nat.lt_log2_self
  constructor
  · exact_mod_cast h1
  · exact_mod_cast h2

theorem leadingExponent_spec (hn : 0 < num) (hd : 0 < den) :
    (2 : ℚ) ^ (52 : Int) * 2 ^ leadingExponent num den ≤ num / den
      ∧ (num : ℚ) / den < 2 ^ (53 : Int) * 2 ^ leadingExponent num den := by
  obtain ⟨hn1, hn2⟩ := zpow_log2_le (n := num) (by omega)
  obtain ⟨hd1, hd2⟩ := zpow_log2_le (n := den) (by omega)
  have hdq : (0 : ℚ) < den := by exact_mod_cast hd
  unfold leadingExponent
  generalize hgap : (Nat.log2 num : Int) - Nat.log2 den = gap
  have hlow : (2 : ℚ) ^ (gap - 1) ≤ num / den := by
    rw [le_div_iff₀ hdq]
    calc (2 : ℚ) ^ (gap - 1) * den ≤ 2 ^ (gap - 1) * 2 ^ ((den.log2 : Int) + 1) := by
          gcongr
      _ = 2 ^ (num.log2 : Int) := by rw [← zpow_add₀ (by norm_num)]; congr 1; omega
      _ ≤ num := hn1
  have hhigh : (num : ℚ) / den < 2 ^ (gap + 1) := by
    rw [div_lt_iff₀ hdq]
    calc (num : ℚ) < 2 ^ ((num.log2 : Int) + 1) := hn2
      _ = 2 ^ (gap + 1) * 2 ^ (den.log2 : Int) := by rw [← zpow_add₀ (by norm_num)]; congr 1; omega
      _ ≤ 2 ^ (gap + 1) * den := by gcongr
  have hpos := scaleTwo_pos num hd (53 - gap)
  have hq := scaleTwo_div num den (53 - gap)
  simp only
  generalize scaleTwo num den (53 - gap) = p at *
  obtain ⟨n, d⟩ := p
  have hdd : (0 : ℚ) < d := by exact_mod_cast hpos
  have hiff : n / d < twoPow 53 ↔ (num : ℚ) / den * 2 ^ (53 - gap) < 2 ^ (53 : Int) := by
    rw [← hq, twoPow_eq, Nat.div_lt_iff_lt_mul hpos, div_lt_iff₀ hdd]
    norm_num
    exact_mod_cast Iff.rfl
  have h53 : (num : ℚ) / den * 2 ^ (53 - gap) < 2 ^ (53 : Int) ↔ (num : ℚ) / den < 2 ^ gap := by
    rw [← lt_div_iff₀ (by positivity), ← zpow_sub₀ (by norm_num)]
    rw [show (53 : Int) - (53 - gap) = gap by ring]
  rw [h53] at hiff
  by_cases hlt : n / d < twoPow 53
  · rw [if_pos hlt, ← zpow_add₀ (by norm_num), ← zpow_add₀ (by norm_num)]
    rw [show (52 : Int) + (gap - 53) = gap - 1 by ring, show (53 : Int) + (gap - 53) = gap by ring]
    exact ⟨hlow, hiff.1 hlt⟩
  · rw [if_neg hlt, ← zpow_add₀ (by norm_num), ← zpow_add₀ (by norm_num)]
    rw [show (52 : Int) + (gap - 52) = gap by ring, show (53 : Int) + (gap - 52) = gap + 1 by ring]
    exact ⟨not_lt.1 fun h => hlt (hiff.2 h), hhigh⟩

/-- A quotient within a half of a whole number is rounded to it, a tie only if
the number is even. -/
theorem roundDiv_eq {d : Nat} (hd : 0 < d) (hlow : 2 * (k * d) ≤ 2 * n + d)
    (hhigh : 2 * n ≤ 2 * (k * d) + d)
    (heven : k % 2 = 0 ∨ 2 * (k * d) < 2 * n + d ∧ 2 * n < 2 * (k * d) + d) : roundDiv n d = k := by
  have hn : d * (n / d) + n % d = n := Nat.div_add_mod n d
  have hr : n % d < d := Nat.mod_lt n hd
  unfold roundDiv
  generalize n % d = r at *
  generalize n / d = c at *
  have hcases : k = c ∨ k = c + 1 := by
    have h1 : c ≤ k := by
      by_contra hlt
      have : (k + 1) * d ≤ c * d := Nat.mul_le_mul_right d (by omega)
      nlinarith
    have h2 : k ≤ c + 1 := by
      by_contra hlt
      have : (c + 2) * d ≤ k * d := Nat.mul_le_mul_right d (by omega)
      nlinarith
    omega
  simp only [Bool.or_eq_true, decide_eq_true_eq, Bool.and_eq_true, beq_iff_eq]
  rcases hcases with rfl | rfl
  · rw [if_neg]
    have : k * d = d * k := Nat.mul_comm _ _
    omega
  · rw [if_pos]
    have : (c + 1) * d = d * c + d := by ring
    omega

theorem roundDiv_scaleTwo (hd : 0 < den) (ht : (num : ℚ) / den * 2 ^ e = t)
    (hlow : (k : ℚ) ≤ t + 1 / 2) (hhigh : t ≤ k + 1 / 2)
    (heven : k % 2 = 0 ∨ (k : ℚ) < t + 1 / 2 ∧ t < k + 1 / 2) :
    roundDiv (scaleTwo num den e).1 (scaleTwo num den e).2 = k := by
  have hpos := scaleTwo_pos num hd e
  rw [← scaleTwo_div] at ht
  generalize scaleTwo num den e = p at *
  obtain ⟨n, d⟩ := p
  have hdq : (0 : ℚ) < d := by exact_mod_cast hpos
  have htn : (n : ℚ) = t * d := by rw [← ht]; field_simp
  apply roundDiv_eq hpos
  · have h : (2 * (k * d) : ℚ) ≤ 2 * n + d := by rw [htn]; nlinarith
    exact_mod_cast h
  · have h : (2 * n : ℚ) ≤ 2 * (k * d) + d := by rw [htn]; nlinarith
    exact_mod_cast h
  · rcases heven with h0 | ⟨h1, h2⟩
    · exact Or.inl h0
    · right
      have h : (2 * (k * d) : ℚ) < 2 * n + d := by rw [htn]; nlinarith
      have h' : (2 * n : ℚ) < 2 * (k * d) + d := by rw [htn]; nlinarith
      exact ⟨by exact_mod_cast h, by exact_mod_cast h'⟩

/-! ## The doubles that quotients round to -/

/-- A number lies where `m * 2 ^ q` is the nearest double, in quarters of the
last place of `m`.  The ends belong to it if `m` is even. -/
structure RoundsTo (m : Nat) (q : Int) (r : ℚ) : Prop where
  low : ((quarters m q).1 : ℚ) ≤ r * 2 ^ (2 - q)
  high : r * 2 ^ (2 - q) ≤ (quarters m q).2.2
  inside : m % 2 = 0 ∨
    ((quarters m q).1 : ℚ) < r * 2 ^ (2 - q) ∧ r * 2 ^ (2 - q) < (quarters m q).2.2

/-- Binary exponents of a number with a mantissa of 53 bits are in order. -/
theorem exponent_le_of_le {a b : Int} {r : ℚ} (ha : (2 : ℚ) ^ (52 : Int) * 2 ^ a ≤ r)
    (hb : r < 2 ^ (53 : Int) * 2 ^ b) : a ≤ b := by
  rw [← zpow_add₀ (by norm_num)] at ha hb
  have h : 52 + a < 53 + b :=
    (zpow_lt_zpow_iff_right₀ (by norm_num : (1 : ℚ) < 2)).1 (lt_of_le_of_lt ha hb)
  omega

theorem four_mul_zpow (q : Int) : (2 : ℚ) ^ q = 4 * 2 ^ (q - 2) := by
  rw [zpow_sub₀ (by norm_num)]
  ring

theorem nearest_of_exponent (hn : 0 < num) (hd : 0 < den)
    (he : max (leadingExponent num den) (-1074) = e) (ht : (num : ℚ) / den * 2 ^ (-e) = t)
    (hlow : (k : ℚ) ≤ t + 1 / 2) (hhigh : t ≤ k + 1 / 2)
    (heven : k % 2 = 0 ∨ (k : ℚ) < t + 1 / 2 ∧ t < k + 1 / 2)
    (hbits : bitPattern k e = bitPattern m q) (h : Representable m q) :
    nearest num den = double m q := by
  rw [nearest_eq_ofBits den (by omega), he, roundDiv_scaleTwo hd ht hlow hhigh heven, hbits,
    min_eq_left (le_of_lt (bitPattern_lt h)), double]

theorem nearest_eq_double (hn : 0 < num) (hd : 0 < den) (h : Representable m q)
    (hr : RoundsTo m q (num / den)) : nearest num den = double m q := by
  obtain ⟨hlow, hhigh, hin⟩ := hr
  obtain ⟨hl1, hl2⟩ := leadingExponent_spec hn hd
  have hm : (m : ℚ) + 1 ≤ 2 ^ 53 := by exact_mod_cast h.mantissa_lt
  have hq := h.le_exponent
  generalize hrr : (num : ℚ) / den = r at *
  set w := r * 2 ^ (2 - q) with hw
  have hrw : r = w * 2 ^ (q - 2) := by
    rw [hw, mul_assoc, ← zpow_add₀ (by norm_num)]
    norm_num
  simp only [quarters, twoPow_eq] at hlow hhigh hin
  have hhigh' : w ≤ 4 * m + 2 := by simpa using hhigh
  have hupper : leadingExponent num den ≤ q := by
    apply exponent_le_of_le hl1
    rw [hrw, four_mul_zpow q]
    norm_num at hm ⊢
    nlinarith
  by_cases hcase : (2 : ℚ) ^ (52 : Int) * 2 ^ q ≤ r ∨ q = -1074
  · -- The mantissa is rounded at the exponent of the double.
    have he : max (leadingExponent num den) (-1074) = q := by
      rcases hcase with hge | hmin
      · have := exponent_le_of_le hge hl2
        omega
      · omega
    have ht : (num : ℚ) / den * 2 ^ (-q) = w / 4 := by
      rw [hrr, hw, zpow_sub₀ (by norm_num), zpow_neg]
      norm_num
      ring
    have hbelow : 4 * m ≤ (4 * m - if m = 2 ^ 52 ∧ minExponent < q then 1 else 2) + 2 := by
      split <;> omega
    have hbelow' : (4 * m : ℚ)
        ≤ ((4 * m - if m = 2 ^ 52 ∧ minExponent < q then 1 else 2 : Nat) : ℚ) + 2 := by
      exact_mod_cast hbelow
    refine nearest_of_exponent hn hd he ht ?_ ?_ ?_ rfl h
    · linarith
    · linarith
    · rcases hin with h0 | ⟨h1, h2⟩
      · exact Or.inl h0
      · right
        have h2' : w < 4 * m + 2 := by simpa using h2
        constructor <;> linarith
  · -- Just below a power of two the mantissa is rounded at the exponent below.
    rw [not_or, not_le] at hcase
    obtain ⟨hlt, hmin⟩ := hcase
    have hw4 : w < 4 * 2 ^ 52 := by
      rw [hrw, four_mul_zpow q] at hlt
      norm_num at hlt ⊢
      nlinarith
    have hm52 : m = 2 ^ 52 := by
      by_contra hne
      rw [if_neg (fun hc => hne hc.1)] at hlow
      have hge : 4 * 2 ^ 52 + 2 ≤ 4 * m - 2 := by
        have := h.normal
        omega
      have hge' : (4 * 2 ^ 52 + 2 : ℚ) ≤ ((4 * m - 2 : Nat) : ℚ) := by exact_mod_cast hge
      linarith
    have hgt : minExponent < q := by
      show (-1074 : Int) < q
      omega
    rw [if_pos ⟨hm52, hgt⟩, hm52] at hlow
    norm_num at hlow hw4
    have he : max (leadingExponent num den) (-1074) = q - 1 := by
      have h1 : q - 1 ≤ leadingExponent num den := by
        refine exponent_le_of_le ?_ hl2
        rw [hrw, zpow_sub₀ (by norm_num), four_mul_zpow q]
        norm_num
        nlinarith
      have h2 : leadingExponent num den ≤ q - 1 := by
        refine exponent_le_of_le hl1 ?_
        rw [zpow_sub₀ (by norm_num)]
        norm_num at hlt ⊢
        linarith
      omega
    have ht : (num : ℚ) / den * 2 ^ (-(q - 1)) = w / 2 := by
      rw [hrr, hw, neg_sub, zpow_sub₀ (by norm_num), zpow_sub₀ (by norm_num)]
      norm_num
      ring
    refine nearest_of_exponent hn hd he ht (k := 2 ^ 53) ?_ ?_ (Or.inl (by decide)) ?_ h
    · linarith
    · linarith
    · rw [bitPattern, bitPattern, if_neg (by omega), if_neg (by omega), hm52]
      omega

theorem roundsTo_self (hm : 0 < m) (q : Int) : RoundsTo m q (m * 2 ^ q) := by
  have hquarters : (m : ℚ) * 2 ^ q * 2 ^ (2 - q) = (4 * m : Nat) := by
    rw [mul_assoc, ← zpow_add₀ (by norm_num)]
    norm_num
    ring
  have hlow : (quarters m q).1 < 4 * m := by
    simp only [quarters]
    split <;> omega
  have hhigh : 4 * m < (quarters m q).2.2 := Nat.lt_add_of_pos_right (by decide)
  refine ⟨?_, ?_, .inr ⟨?_, ?_⟩⟩ <;> rw [hquarters]
  · exact_mod_cast hlow.le
  · exact_mod_cast hhigh.le
  · exact_mod_cast hlow
  · exact_mod_cast hhigh

end Laconic.Number
