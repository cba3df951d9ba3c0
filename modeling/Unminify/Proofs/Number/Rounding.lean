import Mathlib.Algebra.Order.Ring.Cast
import Mathlib.Tactic.FieldSimp
import Unminify.Proofs.Number.Value

/-!
# Rounding to the nearest value

A value *attracts* the rationals that round to it: those up to half a unit of the last place away, the
ends included if its significand is even. Below a power of two the values lie closer together, so that
there the lower end is a quarter away only.

`ofRatio_eq` says that rounding a ratio gives the value that attracts it. Every value attracts itself, so
rounding is exact where it can be (`ofRatio_of_size`).
-/

namespace Unminify.Binary64

/-! ## To the nearest integer -/

theorem roundDiv_eq {n d k : Nat} (hd : 0 < d) (hlow : (k : ℚ) - 1 / 2 ≤ n / d) (hhigh : (n : ℚ) / d ≤ k + 1 / 2)
    (hodd : k % 2 = 1 → (k : ℚ) - 1 / 2 < n / d ∧ (n : ℚ) / d < k + 1 / 2) : roundDiv n d = k := by
  have hd' : (0 : ℚ) < d := by exact_mod_cast hd
  -- the same bounds without fractions
  have hlow' : 2 * k * d ≤ 2 * n + d := by
    rw [le_div_iff₀ hd'] at hlow
    have : (2 * k * d : ℚ) ≤ 2 * n + d := by linarith
    exact_mod_cast this
  have hhigh' : 2 * n ≤ 2 * k * d + d := by
    rw [div_le_iff₀ hd'] at hhigh
    have : (2 * n : ℚ) ≤ 2 * k * d + d := by linarith
    exact_mod_cast this
  have hodd' : k % 2 = 1 → 2 * k * d < 2 * n + d ∧ 2 * n < 2 * k * d + d := by
    intro h
    obtain ⟨hl, hh⟩ := hodd h
    rw [lt_div_iff₀ hd'] at hl
    rw [div_lt_iff₀ hd'] at hh
    have hl' : (2 * k * d : ℚ) < 2 * n + d := by linarith
    have hh' : (2 * n : ℚ) < 2 * k * d + d := by linarith
    exact ⟨by exact_mod_cast hl', by exact_mod_cast hh'⟩
  have hsplit := Nat.div_add_mod n d
  have hrest := Nat.mod_lt n hd
  simp only [roundDiv]
  generalize n / d = q at hsplit ⊢
  generalize n % d = r at hsplit hrest ⊢
  subst hsplit
  have hle : q ≤ k := by
    by_contra h
    have : (k + 1) * d ≤ q * d := Nat.mul_le_mul_right d (Nat.lt_of_not_le h)
    nlinarith
  have hge : k ≤ q + 1 := by
    by_contra h
    have : (q + 2) * d ≤ k * d := Nat.mul_le_mul_right d (Nat.lt_of_not_le h)
    nlinarith
  obtain rfl | rfl : k = q ∨ k = q + 1 := by omega
  · have hhalf : 2 * r ≤ d := by nlinarith
    have htie : k % 2 = 1 → 2 * r < d := fun h => by nlinarith [(hodd' h).2]
    split_ifs <;> omega
  · have hhalf : d ≤ 2 * r := by nlinarith
    have htie : (q + 1) % 2 = 1 → d < 2 * r := fun h => by nlinarith [(hodd' h).1]
    split_ifs <;> omega

/-! ## The exponent of a ratio -/

/-- A power with an integer exponent as a ratio of natural numbers. -/
theorem zpow_eq_div {b : Nat} (hb : b ≠ 0) (e : Int) : (b : ℚ) ^ e = (b ^ e.toNat : Nat) / (b ^ (-e).toNat : Nat) := by
  have hb' : (b : ℚ) ≠ 0 := Nat.cast_ne_zero.mpr hb
  rcases le_total 0 e with h | h
  · obtain ⟨n, rfl⟩ := Int.eq_ofNat_of_zero_le h
    have : (-(n : Int)).toNat = 0 := by omega
    simp [this]
  · obtain ⟨n, hn⟩ := Int.eq_ofNat_of_zero_le (neg_nonneg.mpr h)
    obtain rfl : e = -(n : Int) := by omega
    simp

/-- A ratio divided by a power, in natural numbers. -/
theorem scaled_eq_div {b : Nat} (hb : b ≠ 0) (num den : Nat) (e : Int) :
    ((num * b ^ (-e).toNat : Nat) : ℚ) / (den * b ^ e.toNat : Nat) = num / den / (b : ℚ) ^ e := by
  have hb' : (b : ℚ) ≠ 0 := Nat.cast_ne_zero.mpr hb
  rw [zpow_eq_div hb e]
  push_cast
  field_simp

/-- The numerator and denominator of a value. -/
theorem ratio_eq (x : Binary64) : 0 < x.ratio.2 ∧ (x.ratio.1 : ℚ) / x.ratio.2 = x.size := by
  have hpow : (2 : ℚ) ^ x.exponent = _ := zpow_eq_div two_ne_zero x.exponent
  refine ⟨by simp only [ratio, Nat.pow_eq]; positivity, ?_⟩
  rw [size, hpow, ← mul_div_assoc, ← Nat.cast_mul]
  rfl

/-- A ratio divided by a power of two, as `ofRatio` forms it. -/
theorem scaled_eq (num den : Nat) (e : Int) :
    ((num * 2 ^ (-e).toNat : Nat) : ℚ) / (den * 2 ^ e.toNat : Nat) = num / den / 2 ^ e :=
  scaled_eq_div two_ne_zero num den e

section

variable {num den : Nat} (hnum : 0 < num) (hden : 0 < den)

include hnum hden

/-- How many bits the numerator has more than the denominator tells those of the ratio up to one. -/
theorem ratio_bounds :
    (2 : ℚ) ^ ((num.log2 : Int) - den.log2 - 1) < num / den ∧
      (num : ℚ) / den < 2 ^ ((num.log2 : Int) - den.log2 + 1) := by
  have hden' : (0 : ℚ) < den := by exact_mod_cast hden
  have hlow (n : Nat) (hn : 0 < n) : (2 : ℚ) ^ (n.log2 : Int) ≤ n := by
    rw [zpow_natCast]
    exact_mod_cast Nat.log2_self_le hn.ne'
  have hhigh (n : Nat) : (n : ℚ) < 2 ^ ((n.log2 : Int) + 1) := by
    rw [← Nat.cast_succ, zpow_natCast]
    exact_mod_cast Nat.lt_log2_self
  constructor
  · rw [lt_div_iff₀ hden']
    calc (2 : ℚ) ^ ((num.log2 : Int) - den.log2 - 1) * den
        < 2 ^ ((num.log2 : Int) - den.log2 - 1) * 2 ^ ((den.log2 : Int) + 1) := by
          gcongr
          exact hhigh den
      _ = 2 ^ (num.log2 : Int) := by
          rw [← zpow_add₀ two_ne_zero]
          ring_nf
      _ ≤ num := hlow num hnum
  · rw [div_lt_iff₀ hden']
    calc (num : ℚ) < 2 ^ ((num.log2 : Int) + 1) := hhigh num
      _ = 2 ^ ((num.log2 : Int) - den.log2 + 1) * 2 ^ (den.log2 : Int) := by
          rw [← zpow_add₀ two_ne_zero]
          ring_nf
      _ ≤ 2 ^ ((num.log2 : Int) - den.log2 + 1) * den := by
          gcongr
          exact hlow den hden

/-- The code of the rounded ratio, if it is not too large for a value: the exponent is the one for which
53 bits stand before the point, or the smallest one if there are fewer. -/
theorem ofRatio_eq_code {e : Int} (he : -1074 ≤ e) (hhigh : (num : ℚ) / den < 2 ^ (e + 53))
    (hlow : e = -1074 ∨ (2 : ℚ) ^ (e + 52) ≤ num / den) {k : Nat}
    (hk : roundDiv (num * 2 ^ (-e).toNat) (den * 2 ^ e.toNat) = k)
    (hfinite : (e + 1074).toNat * 2 ^ 52 + k < 2047 * 2 ^ 52) :
    ofRatio num den = ⟨UInt64.ofNat ((e + 1074).toNat * 2 ^ 52 + k)⟩ := by
  obtain ⟨hbits, hbits'⟩ := ratio_bounds hnum hden
  have hden' : (0 : ℚ) < den := by exact_mod_cast hden
  have hexponent : max (if num * 2 ^ (-((num.log2 : Int) - den.log2 - 52)).toNat <
        den * 2 ^ ((num.log2 : Int) - den.log2 - 52).toNat * 2 ^ 52
      then (num.log2 : Int) - den.log2 - 52 - 1 else (num.log2 : Int) - den.log2 - 52) (-1074) = e := by
    generalize (num.log2 : Int) - den.log2 = bits at hbits hbits' ⊢
    have hbelow : num * 2 ^ (-(bits - 52)).toNat < den * 2 ^ (bits - 52).toNat * 2 ^ 52 ↔
        (num : ℚ) / den < 2 ^ bits := by
      have hunit : (0 : ℚ) < (den * 2 ^ (bits - 52).toNat : Nat) := by
        push_cast
        positivity
      have hbits52 : (2 : ℚ) ^ bits = 2 ^ 52 * 2 ^ (bits - 52) := by
        rw [← zpow_natCast, ← zpow_add₀ two_ne_zero]
        congr 1
        omega
      rw [hbits52, ← div_lt_iff₀ (by positivity), ← scaled_eq, div_lt_iff₀ hunit, mul_comm (2 ^ 52 : ℚ)]
      exact_mod_cast Iff.rfl
    have hlt {i j : Int} (h : (2 : ℚ) ^ i < 2 ^ j) : i < j := (zpow_lt_zpow_iff_right₀ one_lt_two).mp h
    have hupper := hlt (hbits.trans hhigh)
    split
    next h =>
      rcases hlow with rfl | hlow
      · omega
      · have := hlt (hlow.trans_lt (hbelow.mp h))
        omega
    next h =>
      have hupper' := hlt ((not_lt.mp fun hlt => h (hbelow.mpr hlt)).trans_lt hhigh)
      rcases hlow with rfl | hlow
      · omega
      · have := hlt (hlow.trans_lt hbits')
        omega
  simp only [ofRatio, if_neg hnum.ne', Nat.pow_eq, hexponent, hk, if_neg hfinite.not_ge]

end

/-! ## Attraction -/

variable {x : Binary64}

/-- How far below a value its lower end is, in units of its last place: nearer below a power of two. -/
def gap (x : Binary64) : ℚ := if x.significand = 2 ^ 52 ∧ -1074 < x.exponent then 1 / 4 else 1 / 2

/-- The rationals that round to a value. -/
structure Attracts (x : Binary64) (v : ℚ) : Prop where
  low : (x.significand - x.gap) * 2 ^ x.exponent ≤ v
  high : v ≤ (x.significand + 1 / 2) * 2 ^ x.exponent
  /-- The ends round to a neighbour whose significand is even. -/
  odd : x.significand % 2 = 1 →
    (x.significand - x.gap) * 2 ^ x.exponent < v ∧ v < (x.significand + 1 / 2) * 2 ^ x.exponent

theorem attracts_iff {v : ℚ} : x.Attracts v ↔
    if x.significand % 2 = 0 then
      (x.significand - x.gap) * 2 ^ x.exponent ≤ v ∧ v ≤ (x.significand + 1 / 2) * 2 ^ x.exponent
    else (x.significand - x.gap) * 2 ^ x.exponent < v ∧ v < (x.significand + 1 / 2) * 2 ^ x.exponent := by
  split
  next heven => exact ⟨fun h => ⟨h.low, h.high⟩, fun h => ⟨h.1, h.2, fun hodd => by omega⟩⟩
  next hodd => exact ⟨fun h => h.odd (by omega), fun h => ⟨h.1.le, h.2.le, fun _ => h⟩⟩

theorem gap_pos (x : Binary64) : 0 < x.gap := by
  unfold gap
  split <;> norm_num

theorem gap_le (x : Binary64) : x.gap ≤ 1 / 2 := by
  unfold gap
  split <;> norm_num

theorem attracts_of_between {v : ℚ} (hlow : (x.significand - x.gap) * 2 ^ x.exponent < v)
    (hhigh : v < (x.significand + 1 / 2) * 2 ^ x.exponent) : x.Attracts v :=
  ⟨hlow.le, hhigh.le, fun _ => ⟨hlow, hhigh⟩⟩

theorem low_lt_size (x : Binary64) : (x.significand - x.gap) * 2 ^ x.exponent < x.size := by
  have := x.gap_pos
  unfold size
  gcongr
  linarith

theorem size_lt_high (x : Binary64) : x.size < (x.significand + 1 / 2) * 2 ^ x.exponent := by
  unfold size
  gcongr
  linarith

/-- Every value attracts itself. -/
theorem attracts_size (x : Binary64) : x.Attracts x.size :=
  attracts_of_between x.low_lt_size x.size_lt_high

/-- A ratio is rounded to the value that attracts it. -/
theorem ofRatio_eq {num den : Nat} (hnum : 0 < num) (hden : 0 < den) (hfinite : x.IsFinite)
    (hsign : x.isNegative = false) (h : x.Attracts (num / den)) : ofRatio num den = x := by
  have hcode := x.code_eq
  have hbound := isFinite_iff.mp hfinite
  have hsmall : (x.significand : ℚ) + 1 ≤ 2 ^ 53 := by exact_mod_cast x.significand_lt
  have hunit : (0 : ℚ) < 2 ^ x.exponent := by positivity
  have hpow (e : Int) (n : Nat) : (2 : ℚ) ^ (e + n) = 2 ^ n * 2 ^ e := by
    rw [zpow_add₀ two_ne_zero, zpow_natCast, mul_comm]
  -- a code gives the value back
  have hback {c : Nat} (hc : c = x.code) : (⟨UInt64.ofNat c⟩ : Binary64) = x := by
    have hlt : c < 2 ^ 63 := by omega
    exact eq_of_code_eq ((isNegative_ofNat hlt).trans hsign.symm) ((code_ofNat hlt).trans hc)
  by_cases hbinade : x.exponent = -1074 ∨ (2 : ℚ) ^ (x.exponent + 52) ≤ num / den
  · have hhigh : (num : ℚ) / den < 2 ^ (x.exponent + 53) := by
      rw [show (53 : Int) = (53 : Nat) from rfl, hpow]
      refine h.high.trans_lt ?_
      gcongr
      linarith
    have hround : roundDiv (num * 2 ^ (-x.exponent).toNat) (den * 2 ^ x.exponent.toNat) = x.significand := by
      have hgap := x.gap_le
      refine roundDiv_eq (by positivity) ?_ ?_ fun hodd => ?_
      · rw [scaled_eq, le_div_iff₀ hunit]
        refine le_trans ?_ h.low
        gcongr
      · rw [scaled_eq, div_le_iff₀ hunit]
        exact h.high
      · obtain ⟨hlow, hhigh⟩ := h.odd hodd
        rw [scaled_eq, lt_div_iff₀ hunit, div_lt_iff₀ hunit]
        refine ⟨lt_of_le_of_lt ?_ hlow, hhigh⟩
        gcongr
    rw [ofRatio_eq_code hnum hden x.le_exponent hhigh hbinade hround (by omega)]
    exact hback hcode.symm
  · -- the ratio has fewer bits than the value, so the value is a power of two
    obtain ⟨hexponent, hbelow⟩ := not_or.mp hbinade
    have hexponent : -1074 < x.exponent := lt_of_le_of_ne x.le_exponent (Ne.symm hexponent)
    rw [not_le, show (52 : Int) = (52 : Nat) from rfl, hpow] at hbelow
    have hone := le_significand hexponent
    have hsignificand : x.significand = 2 ^ 52 := by
      have hgap := x.gap_le
      have hlt : ((x.significand : ℚ) - x.gap) * 2 ^ x.exponent < 2 ^ 52 * 2 ^ x.exponent := h.low.trans_lt hbelow
      have hlt' := lt_of_mul_lt_mul_right hlt hunit.le
      have hle : (x.significand : ℚ) < 2 ^ 52 + 1 := by linarith
      have hle' : x.significand < 2 ^ 52 + 1 := by exact_mod_cast hle
      omega
    have hlow := h.low
    rw [gap, if_pos ⟨hsignificand, hexponent⟩, hsignificand] at hlow
    have hhalf : (2 : ℚ) ^ x.exponent = 2 * 2 ^ (x.exponent - 1) := by
      rw [← zpow_one_add₀ two_ne_zero]
      congr 1
      omega
    rw [hhalf] at hlow hbelow
    have hunit' : (0 : ℚ) < 2 ^ (x.exponent - 1) := by positivity
    have hround : roundDiv (num * 2 ^ (-(x.exponent - 1)).toNat) (den * 2 ^ (x.exponent - 1).toNat) = 2 ^ 53 := by
      refine roundDiv_eq (by positivity) ?_ ?_ fun hodd => absurd hodd (by decide)
      · rw [scaled_eq, le_div_iff₀ hunit']
        push_cast at hlow ⊢
        linarith
      · rw [scaled_eq, div_le_iff₀ hunit']
        push_cast at hbelow ⊢
        linarith
    have hhigh : (num : ℚ) / den < 2 ^ (x.exponent - 1 + 53) := by
      rw [show (53 : Int) = (53 : Nat) from rfl, hpow]
      linarith
    have hlow' : (2 : ℚ) ^ (x.exponent - 1 + 52) ≤ num / den := by
      rw [show (52 : Int) = (52 : Nat) from rfl, hpow]
      push_cast at hlow ⊢
      linarith
    rw [ofRatio_eq_code hnum hden (by omega) hhigh (.inr hlow') hround (by omega)]
    exact hback (by omega)

/-- Rounding changes no ratio that is a value already. -/
theorem ofRatio_of_size {num den : Nat} (hden : 0 < den) (hfinite : x.IsFinite) (hsign : x.isNegative = false)
    (h : (num : ℚ) / den = x.size) : ofRatio num den = x := by
  rcases num.eq_zero_or_pos with rfl | hnum
  · have hzero : x.code = 0 := by
      rw [← significand_eq_zero_iff, ← size_eq_zero_iff, ← h, Nat.cast_zero, zero_div]
    exact eq_of_code_eq (hsign.symm ▸ rfl) (hzero.symm ▸ rfl)
  · exact ofRatio_eq hnum hden hfinite hsign (h ▸ x.attracts_size)

end Unminify.Binary64
