import Unminify.Proofs.Number.Decimal

/-!
# Shortest decimals read back

The decimal that `Binary64.shortest` finds for a finite value other than zero is attracted by the value
(`attracts_shortest`), so it is rounded to the value again (`ofDecimal_eq`).

Each candidate is tested against the two ends of the rounding interval, and what the search accepts is
what the value attracts (`withDigits?_cases`). It accepts something with seventeen digits at the latest
(`withDigits?_seventeen`): if the value lay strictly between two neighbours on that grid, neither of them
attracted, the grid would be wider than the interval, while seventeen digits are finer than `2 ^ 53`.
-/

namespace Unminify.Binary64

/-! ## The number of digits before the point -/

/-- As many digits as are found stand before the point, or fewer would do. The ratio may be far beyond
all finite values. -/
theorem digitsBefore_le {num den : Nat} (hnum : 0 < num) (hden : 0 < den) (hlow : (2 : ℚ) ^ (-1300 : Int) ≤ num / den)
    (hhigh : (num : ℚ) / den ≤ 2 ^ (2600 : Int)) : (10 : ℚ) ^ (digitsBefore num den - 1) ≤ num / den := by
  obtain ⟨hbits, hbits'⟩ := ratio_bounds hnum hden
  have hden' : (0 : ℚ) < den := by exact_mod_cast hden
  have hlt {i j : Int} (h : (2 : ℚ) ^ i < 2 ^ j) : i < j := (zpow_lt_zpow_iff_right₀ one_lt_two).mp h
  have hupper := hlt (hbits.trans_le hhigh)
  have hlower := hlt (hlow.trans_lt hbits')
  have hfits (p : Int) : num * 10 ^ (-p).toNat < den * 10 ^ p.toNat ↔ (num : ℚ) / den < 10 ^ p := by
    have hle := le_scaled_iff (n := num) (c := 1) hden p
    rw [one_mul, Nat.cast_one, one_mul] at hle
    exact lt_iff_lt_of_le_iff_le hle
  simp only [digitsBefore, Nat.pow_eq]
  generalize hguess : ((num.log2 : Int) - den.log2) * 30103 / 100000 = guess
  have hstart : (10 : ℚ) ^ (guess - 3) ≤ num / den :=
    (ten_zpow_le_two_zpow (by omega)).trans hbits.le
  rw [List.find?_map]
  cases hfind : (List.range 6).find? _ with
  | none =>
    have hlast := List.find?_range_eq_none.mp hfind 5 (by decide)
    rw [Function.comp_apply, Bool.not_eq_true', decide_eq_false_iff_not, hfits, not_lt] at hlast
    rwa [Option.map_none, Option.getD_none, show guess + 4 - 1 = guess - 2 + (5 : Nat) by omega]
  | some i =>
    obtain ⟨-, -, hbefore⟩ := List.find?_range_eq_some.mp hfind
    rw [Option.map_some, Option.getD_some]
    cases i with
    | zero => rwa [show guess - 2 + (0 : Nat) - 1 = guess - 3 by omega]
    | succ i =>
      have hprevious := hbefore i (Nat.lt_succ_self i)
      rw [Function.comp_apply, Bool.not_eq_true', decide_eq_false_iff_not, hfits, not_lt] at hprevious
      rwa [show guess - 2 + (i + 1 : Nat) - 1 = guess - 2 + i by omega]

/-! ## The rounding interval -/

variable {x : Binary64}

section

variable {lo mid hi den : Nat} (hx : x.significand ≠ 0) (hinterval : x.interval = (lo, mid, hi, den))

include hx hinterval

/-- The rounding interval in rationals. -/
theorem interval_eq : 0 < den ∧ (lo : ℚ) / den = (x.significand - x.gap) * 2 ^ x.exponent ∧
    (mid : ℚ) / den = x.size ∧ (hi : ℚ) / den = (x.significand + 1 / 2) * 2 ^ x.exponent := by
  have hpower : (x.fraction = 0 ∧ 1 < x.field) ↔ (x.significand = 2 ^ 52 ∧ -1074 < x.exponent) := by
    rw [exponent_eq, significand, Nat.pow_eq]
    split <;> omega
  have hstep : 0 < 2 ^ x.exponent.toNat := by positivity
  have hle : 2 ^ x.exponent.toNat ≤ x.significand * 2 ^ x.exponent.toNat :=
    Nat.le_mul_of_pos_left _ (Nat.pos_of_ne_zero hx)
  simp only [interval, ratio, Nat.pow_eq, hpower, Prod.mk.injEq] at hinterval
  obtain ⟨rfl, rfl, rfl, rfl⟩ := hinterval
  have hpow : (2 : ℚ) ^ x.exponent = _ := zpow_eq_div two_ne_zero x.exponent
  have hden : ((2 ^ (-x.exponent).toNat : Nat) : ℚ) ≠ 0 := by positivity
  refine ⟨by positivity, ?_, ?_, ?_⟩
  · rw [hpow, gap]
    split <;> rw [Nat.cast_sub (by omega)] <;> push_cast <;> field_simp
    ring
  · rw [size, hpow]
    push_cast
    field_simp
  · rw [hpow]
    push_cast
    field_simp
    ring

/-- A candidate that passes the test against both ends is one that the value attracts. -/
theorem reads_iff (c : Nat) (q : Int) :
    (if x.significand % 2 = 0 then
        decide (lo * 10 ^ (-q).toNat ≤ c * (den * 10 ^ q.toNat)) && decide (c * (den * 10 ^ q.toNat) ≤ hi * 10 ^ (-q).toNat)
      else
        decide (lo * 10 ^ (-q).toNat < c * (den * 10 ^ q.toNat)) && decide (c * (den * 10 ^ q.toNat) < hi * 10 ^ (-q).toNat)) =
      true ↔ x.Attracts (c * 10 ^ q) := by
  obtain ⟨hden, hlo, -, hhi⟩ := interval_eq hx hinterval
  have hlow := scaled_le_iff (n := lo) (c := c) hden q
  have hlow' := le_scaled_iff (n := lo) (c := c) hden q
  have hhigh := le_scaled_iff (n := hi) (c := c) hden q
  have hhigh' := scaled_le_iff (n := hi) (c := c) hden q
  rw [hlo] at hlow hlow'
  rw [hhi] at hhigh hhigh'
  rw [attracts_iff]
  split <;> simp only [Bool.and_eq_true, decide_eq_true_eq]
  · rw [hlow, hhigh]
  · rw [lt_iff_lt_of_le_iff_le hlow', lt_iff_lt_of_le_iff_le hhigh']

/-- What the search finds on the grid with `k` digits is attracted. If it finds nothing, neither of the
value's two neighbours on the grid is. -/
theorem withDigits?_cases (k : Nat) :
    (∃ d, x.withDigits? k = some d ∧ d.coefficient ≠ 0 ∧ x.Attracts d.value) ∨
      ∃ (q : Int) (down : Nat), q = digitsBefore mid den - k ∧ x.withDigits? k = none ∧
        down * 10 ^ q ≤ x.size ∧ x.size < (down + 1 : Nat) * 10 ^ q ∧
        (x.Attracts (down * 10 ^ q) → down = 0) ∧ ¬x.Attracts ((down + 1 : Nat) * 10 ^ q) := by
  obtain ⟨hden, -, hmid, -⟩ := interval_eq hx hinterval
  generalize hresult : x.withDigits? k = result
  unfold withDigits? at hresult
  rw [hinterval] at hresult
  dsimp -zeta only at hresult
  extract_lets q scale unit down rest reads downOk upOk at hresult
  have hreads (c : Nat) : reads c = true ↔ x.Attracts (c * 10 ^ q) := reads_iff hx hinterval c q
  have hunit : 0 < unit := Nat.mul_pos hden (Nat.pow_pos (by decide))
  have hdown : down * 10 ^ q ≤ x.size := by
    rw [← hmid]
    exact (le_scaled_iff hden q).mp (Nat.div_mul_le_self (scale mid) unit)
  have hup : x.size < (down + 1 : Nat) * 10 ^ q := by
    have hlt : scale mid < (down + 1) * unit := by
      rw [mul_comm]
      exact Nat.lt_mul_div_succ (scale mid) hunit
    rw [← hmid]
    exact (lt_iff_lt_of_le_iff_le (le_scaled_iff hden q)).mp hlt
  have hdownOk : downOk = true ↔ x.Attracts (down * 10 ^ q) ∧ down ≠ 0 := by
    simp only [downOk, Bool.and_eq_true, hreads, bne_iff_ne]
  have hupOk : upOk = true ↔ x.Attracts ((down + 1 : Nat) * 10 ^ q) := hreads (down + 1)
  clear_value downOk upOk
  subst hresult
  split
  next h =>
    rw [Bool.and_eq_true] at h
    exact .inl ⟨_, rfl, Nat.succ_ne_zero down, hupOk.mp h.1⟩
  next h =>
    split
    next hfound =>
      obtain ⟨hattracts, hne⟩ := hdownOk.mp hfound
      exact .inl ⟨_, rfl, hne, hattracts⟩
    next hnone =>
      have hup' : upOk ≠ true := by
        simpa [Bool.eq_false_of_not_eq_true hnone] using h
      refine .inr ⟨q, down, rfl, rfl, hdown, hup, fun hattracts => ?_, fun hattracts => hup' (hupOk.mpr hattracts)⟩
      by_contra hne
      exact hnone (hdownOk.mpr ⟨hattracts, hne⟩)

end

section

variable (hfinite : x.IsFinite) (hx : x.significand ≠ 0)

include hfinite hx

/-- On the grid with seventeen digits the value has so many. -/
theorem seventeen_digits {lo mid hi den : Nat} (hinterval : x.interval = (lo, mid, hi, den)) :
    10 ^ 16 * (10 : ℚ) ^ (digitsBefore mid den - 17) ≤ x.size := by
  obtain ⟨hden, -, hmid, -⟩ := interval_eq hx hinterval
  have hpos : (0 : ℚ) < mid / den := hmid ▸ (by positivity : (0 : ℚ) < 2 ^ (-1074 : Int)).trans_le (le_size hx)
  have hpoint : (10 : ℚ) ^ (digitsBefore mid den - 1) ≤ mid / den := by
    refine digitsBefore_le ?_ hden ?_ ?_
    · exact_mod_cast (div_pos_iff_of_pos_right (by exact_mod_cast hden)).mp hpos
    · exact hmid ▸ (zpow_le_zpow_right₀ (by norm_num) (by norm_num)).trans (le_size hx)
    · exact hmid ▸ (size_lt hfinite).le.trans (zpow_le_zpow_right₀ (by norm_num) (by norm_num))
  calc 10 ^ 16 * (10 : ℚ) ^ (digitsBefore mid den - 17) = 10 ^ (digitsBefore mid den - 1) := by
        rw [← zpow_natCast, ← zpow_add₀ (by norm_num)]
        congr 1
        omega
    _ ≤ x.size := hmid ▸ hpoint

/-- Seventeen digits tell a value from its neighbours. -/
theorem withDigits?_seventeen : ∃ d, x.withDigits? 17 = some d ∧ d.coefficient ≠ 0 ∧ x.Attracts d.value := by
  rcases hinterval : x.interval with ⟨lo, mid, hi, den⟩
  refine (withDigits?_cases hx hinterval 17).resolve_right ?_
  rintro ⟨q, down, rfl, -, hdown, hup, hnodown, hnoup⟩
  have hdigits := seventeen_digits hfinite hx hinterval
  rw [show (17 : Int) = (17 : Nat) from rfl] at hdigits
  generalize digitsBefore mid den - (17 : Nat) = q at *
  have hunit : (0 : ℚ) < 10 ^ q := by positivity
  have hne : down ≠ 0 := by
    rintro rfl
    norm_num at hup
    nlinarith
  have hlow : down * 10 ^ q ≤ (x.significand - x.gap) * 2 ^ x.exponent := by
    by_contra hlt
    exact hne (hnodown (attracts_of_between (not_le.mp hlt) (hdown.trans_lt x.size_lt_high)))
  have hhigh : (x.significand + 1 / 2) * 2 ^ x.exponent ≤ ((down + 1 : Nat) : ℚ) * 10 ^ q := by
    by_contra hlt
    exact hnoup (attracts_of_between (x.low_lt_size.trans hup) (not_le.mp hlt))
  -- so the grid is as wide as the interval at least
  have hwide : (1 / 2 + x.gap) * 2 ^ x.exponent ≤ 10 ^ q := by
    push_cast at hhigh
    linarith
  have hfew : 10 ^ 16 * (1 / 2 + x.gap) ≤ x.significand := by
    have : (0 : ℚ) < 2 ^ x.exponent := by positivity
    refine le_of_mul_le_mul_right ?_ this
    rw [size] at hdigits
    linarith
  rw [gap] at hfew
  split at hfew
  next hpower =>
    rw [hpower.1] at hfew
    norm_num at hfew
  next =>
    have hlt : (x.significand : ℚ) < 2 ^ 53 := by exact_mod_cast x.significand_lt
    norm_num at hfew hlt
    linarith

/-- The shortest decimal of a value reads back as the value. -/
theorem attracts_shortest : x.shortest.coefficient ≠ 0 ∧ x.Attracts x.shortest.value := by
  obtain ⟨d, hfound, hd⟩ : ∃ d, (List.range 17).findSome? (fun i => x.withDigits? (i + 1)) = some d ∧
      d.coefficient ≠ 0 ∧ x.Attracts d.value := by
    cases hsearch : (List.range 17).findSome? (fun i => x.withDigits? (i + 1)) with
    | none =>
      obtain ⟨d, hd, -⟩ := withDigits?_seventeen hfinite hx
      have hnone := List.findSome?_eq_none_iff.mp hsearch 16 (by decide)
      exact absurd (hd.symm.trans hnone) (by simp)
    | some d =>
      obtain ⟨i, -, hsome⟩ := List.exists_of_findSome?_eq_some hsearch
      rcases hinterval : x.interval with ⟨lo, mid, hi, den⟩
      rcases withDigits?_cases hx hinterval (i + 1) with ⟨d', hd', h⟩ | ⟨-, -, -, hnone, -⟩
      · cases hsome.symm.trans hd'
        exact ⟨d, rfl, h⟩
      · cases hsome.symm.trans hnone
  rw [shortest, hfound, Option.getD_some, Decimal.value_trimmed hd.1]
  exact ⟨Decimal.trimmed_coefficient_ne_zero hd.1, hd.2⟩

end

end Unminify.Binary64
