import Mathlib.Tactic.FieldSimp
import Unminify.Number.Shortest
import Unminify.Proofs.Number.Rounding

/-!
# Decimals as rationals

A decimal denotes `coefficient · 10 ^ exponent`, and dropping the trailing zeros of its coefficient does
not change that (`Decimal.value_trimmed`).

`ofDecimal_eq` says that a decimal is rounded to the value that attracts it. The tests on the number of
digits settle only decimals that no finite value but zero attracts, since the powers of ten that they
compare with are beyond the smallest and the largest value.
-/

namespace Unminify

/-! ## Decimals as rationals -/

namespace Decimal

/-- The rational number that a decimal denotes. -/
def value (d : Decimal) : ℚ := d.coefficient * 10 ^ d.exponent

/-- What a numeral ends in after its trailing zeros are dropped is a power of ten. -/
theorem pow_trailing_dvd (n : Nat) : 10 ^ ((digits n).reverse.takeWhile (· == '0')).length ∣ n := by
  have hzeros : (digits n).reverse.takeWhile (· == '0') =
      List.replicate ((digits n).reverse.takeWhile (· == '0')).length '0' :=
    List.eq_replicate_of_mem fun c hc => beq_iff_eq.mp (List.all_eq_true.mp List.all_takeWhile c hc)
  have hsplit : digits n = ((digits n).reverse.dropWhile (· == '0')).reverse ++
      List.replicate ((digits n).reverse.takeWhile (· == '0')).length '0' := by
    rw [← List.reverse_inj, List.reverse_append, List.reverse_reverse, List.reverse_replicate, ← hzeros,
      List.takeWhile_append_dropWhile]
  generalize ((digits n).reverse.takeWhile (· == '0')).length = z at hsplit ⊢
  have hread := congrArg (Nat.ofDigitChars 10 · 0) hsplit
  simp only [digits, Nat.ofDigitChars_ten_toDigits, Nat.ofDigitChars_append, Nat.ofDigitChars_replicate_zero] at hread
  exact ⟨_, hread⟩

variable {d : Decimal}

theorem value_trimmed (h : d.coefficient ≠ 0) : d.trimmed.value = d.value := by
  obtain ⟨m, hm⟩ := pow_trailing_dvd d.coefficient
  simp only [trimmed, value, if_neg h, Nat.pow_eq]
  generalize ((digits d.coefficient).reverse.takeWhile (· == '0')).length = z at hm ⊢
  rw [hm, Nat.mul_div_cancel_left m (by positivity), zpow_add₀ (by norm_num), zpow_natCast]
  push_cast
  ring

theorem trimmed_coefficient_ne_zero (h : d.coefficient ≠ 0) : d.trimmed.coefficient ≠ 0 := by
  intro hzero
  have hvalue := value_trimmed h
  rw [value, hzero, Nat.cast_zero, zero_mul, value, eq_comm, mul_eq_zero, Nat.cast_eq_zero,
    or_iff_left (zpow_ne_zero _ (by norm_num))] at hvalue
  exact h hvalue

end Decimal

namespace Binary64

/-! ## Powers of ten -/

/-- Ten cubed is below the tenth power of two, and the tenth power of ten above the thirty-third. -/
theorem ten_zpow_le_two_zpow {a b : Int} (h : 0 ≤ a ∧ 10 * a ≤ 3 * b ∨ a ≤ 0 ∧ 33 * a ≤ 10 * b) :
    (10 : ℚ) ^ a ≤ 2 ^ b := by
  have hpow (x : ℚ) (a : Int) (n : Nat) : (x ^ a) ^ n = x ^ (n * a) := by rw [mul_comm, zpow_mul, zpow_natCast]
  rcases h with ⟨ha, h⟩ | ⟨ha, h⟩
  · refine le_of_pow_le_pow_left₀ (n := 3) (by norm_num) (by positivity) ?_
    calc ((10 : ℚ) ^ a) ^ 3 = (10 ^ 3) ^ a := by rw [hpow, zpow_mul]; norm_cast
      _ ≤ (2 ^ 10) ^ a := zpow_le_zpow_left₀ ha (by norm_num) (by norm_num)
      _ = 2 ^ (10 * a) := by rw [zpow_mul]; norm_cast
      _ ≤ 2 ^ (3 * b) := zpow_le_zpow_right₀ (by norm_num) h
      _ = (2 ^ b) ^ 3 := (hpow 2 b 3).symm
  · obtain ⟨n, hn⟩ := Int.eq_ofNat_of_zero_le (neg_nonneg.mpr ha)
    obtain rfl : a = -(n : Int) := by omega
    refine le_of_pow_le_pow_left₀ (n := 10) (by norm_num) (by positivity) ?_
    calc ((10 : ℚ) ^ (-(n : Int))) ^ 10 = ((10 ^ 10) ^ n)⁻¹ := by rw [hpow, zpow_mul, zpow_neg]; norm_cast
      _ ≤ ((2 ^ 33) ^ n)⁻¹ := by
          gcongr
          norm_num
      _ = 2 ^ (33 * -(n : Int)) := by rw [zpow_mul, zpow_neg]; norm_cast
      _ ≤ 2 ^ (10 * b) := zpow_le_zpow_right₀ (by norm_num) h
      _ = (2 ^ b) ^ 10 := (hpow 2 b 10).symm

theorem scaled_eq_ten (n den : Nat) (q : Int) :
    ((n * 10 ^ (-q).toNat : Nat) : ℚ) / (den * 10 ^ q.toNat : Nat) = n / den / 10 ^ q :=
  scaled_eq_div (by norm_num) n den q

section

variable {n c den : Nat} (hden : 0 < den) (q : Int)

include hden

/-- A ratio is compared with a multiple of a power of ten in natural numbers. -/
theorem scaled_le_iff : n * 10 ^ (-q).toNat ≤ c * (den * 10 ^ q.toNat) ↔ (n : ℚ) / den ≤ c * 10 ^ q := by
  have hunit : (0 : ℚ) < (den * 10 ^ q.toNat : Nat) := by exact_mod_cast Nat.mul_pos hden (by positivity)
  rw [← div_le_iff₀ (by positivity : (0 : ℚ) < 10 ^ q), ← scaled_eq_ten, div_le_iff₀ hunit]
  norm_cast

theorem le_scaled_iff : c * (den * 10 ^ q.toNat) ≤ n * 10 ^ (-q).toNat ↔ (c : ℚ) * 10 ^ q ≤ n / den := by
  have hunit : (0 : ℚ) < (den * 10 ^ q.toNat : Nat) := by exact_mod_cast Nat.mul_pos hden (by positivity)
  rw [← le_div_iff₀ (by positivity : (0 : ℚ) < 10 ^ q), ← scaled_eq_ten, le_div_iff₀ hunit]
  norm_cast

end

/-! ## Rounding a decimal -/

variable {x : Binary64}

/-- The number of digits tells the size of a number up to a factor of ten. -/
theorem length_toDigits_bounds {c : Nat} (hc : c ≠ 0) :
    10 ^ ((Nat.toDigits 10 c).length - 1) ≤ c ∧ c < 10 ^ (Nat.toDigits 10 c).length := by
  have hpos : 0 < (Nat.toDigits 10 c).length := List.length_pos_iff.mpr Nat.toDigits_ne_nil
  refine ⟨?_, (Nat.length_toDigits_le_iff (by decide) hpos).mp le_rfl⟩
  rcases Nat.eq_zero_or_pos ((Nat.toDigits 10 c).length - 1) with hone | hmore
  · rw [hone]
    exact Nat.pos_of_ne_zero hc
  · refine Nat.le_of_not_lt fun hlt => ?_
    have := (Nat.length_toDigits_le_iff (by decide) hmore).mpr hlt
    omega

namespace Attracts

variable {v : ℚ} (h : x.Attracts v)

include h

theorem ge (hx : x.significand ≠ 0) : (2 : ℚ) ^ (-1075 : Int) ≤ v := by
  have hone : (1 : ℚ) ≤ x.significand := by exact_mod_cast Nat.pos_of_ne_zero hx
  have hgap := x.gap_le
  calc (2 : ℚ) ^ (-1075 : Int) = 1 / 2 * 2 ^ (-1074 : Int) := by
        rw [show (-1075 : Int) = -1 + -1074 from rfl, zpow_add₀ two_ne_zero, zpow_neg_one, one_div]
    _ ≤ (x.significand - x.gap) * 2 ^ x.exponent := by
        gcongr
        · linarith
        · linarith
        · norm_num
        · exact x.le_exponent
    _ ≤ v := h.low

theorem le (hfinite : x.IsFinite) : v ≤ (2 : ℚ) ^ (1024 : Int) := by
  have hlt : (x.significand : ℚ) + 1 ≤ 2 ^ 53 := by exact_mod_cast x.significand_lt
  calc v ≤ (x.significand + 1 / 2) * 2 ^ x.exponent := h.high
    _ ≤ 2 ^ 53 * 2 ^ (971 : Int) := by
        gcongr
        · linarith
        · norm_num
        · exact exponent_le hfinite
    _ = 2 ^ (1024 : Int) := by
        rw [show (1024 : Int) = (53 : Nat) + 971 from rfl, zpow_add₀ two_ne_zero, zpow_natCast]

end Attracts

/-- A decimal is rounded to the value that attracts it. -/
theorem ofDecimal_eq {c : Nat} {e : Int} (hfinite : x.IsFinite) (hsign : x.isNegative = false)
    (hx : x.significand ≠ 0) (h : x.Attracts (c * 10 ^ e)) : ofDecimal c e = x := by
  have hge := h.ge hx
  have hle := h.le hfinite
  have hc : c ≠ 0 := by
    rintro rfl
    have : (0 : ℚ) < 2 ^ (-1075 : Int) := by positivity
    rw [Nat.cast_zero, zero_mul] at hge
    exact absurd hge this.not_ge
  obtain ⟨hmany, hfew⟩ := length_toDigits_bounds hc
  have hratio : ((c * 10 ^ e.toNat : Nat) : ℚ) / (10 ^ (-e).toNat : Nat) = c * 10 ^ e := by
    have hpow : (10 : ℚ) ^ e = _ := zpow_eq_div (b := 10) (by norm_num) e
    rw [hpow, Nat.cast_mul, mul_div_assoc]
  have hround : ofRatio (c * 10 ^ e.toNat) (10 ^ (-e).toNat) = x :=
    ofRatio_eq (by positivity) (by positivity) hfinite hsign (hratio ▸ h)
  have hpow {i j : Int} (h : (10 : ℚ) ^ i < 10 ^ j) : i < j := (zpow_lt_zpow_iff_right₀ (by norm_num)).mp h
  have hnotsmall : -401 < ((Nat.toDigits 10 c).length : Int) + e := by
    refine hpow ?_
    calc (10 : ℚ) ^ (-401 : Int) ≤ 2 ^ (-1075 : Int) := ten_zpow_le_two_zpow (by norm_num)
      _ ≤ c * 10 ^ e := hge
      _ < 10 ^ (Nat.toDigits 10 c).length * 10 ^ e := by
          gcongr
          exact_mod_cast hfew
      _ = 10 ^ (((Nat.toDigits 10 c).length : Int) + e) := by rw [zpow_add₀ (by norm_num), zpow_natCast]
  have hnotlarge : (((Nat.toDigits 10 c).length - 1 : Nat) : Int) + e < 399 := by
    refine hpow ?_
    calc (10 : ℚ) ^ ((((Nat.toDigits 10 c).length - 1 : Nat) : Int) + e)
        = 10 ^ ((Nat.toDigits 10 c).length - 1) * 10 ^ e := by rw [zpow_add₀ (by norm_num), zpow_natCast]
      _ ≤ c * 10 ^ e := by
          gcongr
          exact_mod_cast hmany
      _ ≤ 2 ^ (1024 : Int) := hle
      _ ≤ 2 ^ ((3 : Int) * 342) := zpow_le_zpow_right₀ (by norm_num) (by norm_num)
      _ = (2 ^ (3 : Int)) ^ (342 : Int) := zpow_mul _ _ _
      _ ≤ 10 ^ (342 : Int) := zpow_le_zpow_left₀ (by norm_num) (by norm_num) (by norm_num)
      _ < 10 ^ (399 : Int) := zpow_lt_zpow_right₀ (by norm_num) (by norm_num)
  simp only [ofDecimal, Nat.pow_eq, if_neg hc]
  rw [if_neg (by omega), if_neg (by omega), hround]

end Binary64

end Unminify
