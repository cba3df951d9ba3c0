import Mathlib.Algebra.Order.Field.Power
import Mathlib.Tactic.Linarith
import Mathlib.Tactic.NormNum
import Mathlib.Tactic.Positivity
import Mathlib.Tactic.Ring
import Unminify.Number.Binary64

/-!
# Values as rationals

A finite binary64 value is a rational number, `significand · 2 ^ exponent` with a sign (`value`). The
bits without the sign are a *code*: `2 ^ 52` times the exponent, counted from the smallest one, plus the
significand (`code_eq`). Codes are ordered as the values are (`size_lt_iff`), across the change from
subnormal to normal values as well, since there the hidden one runs into the exponent.
-/

namespace Unminify.Binary64

variable {x y : Binary64}

/-- Neither infinite nor a non-number. -/
def IsFinite (x : Binary64) : Prop := x.field ≠ 2047

instance (x : Binary64) : Decidable x.IsFinite := inferInstanceAs (Decidable (x.field ≠ 2047))

/-- The bits without the sign. -/
def code (x : Binary64) : Nat := x.bits.toNat % 2 ^ 63

/-- The rational number that a finite value has as its magnitude. -/
def size (x : Binary64) : ℚ := x.significand * 2 ^ x.exponent

/-- The rational number that a finite value is. Both zeros are zero. -/
def value (x : Binary64) : ℚ := if x.isNegative then -x.size else x.size

/-! ## Codes -/

theorem field_lt (x : Binary64) : x.field < 2048 := Nat.mod_lt _ (by decide)

theorem fraction_lt (x : Binary64) : x.fraction < 2 ^ 52 := Nat.mod_lt _ (by decide)

theorem code_eq_field (x : Binary64) : x.code = x.field * 2 ^ 52 + x.fraction := by
  simp only [code, field, fraction, Nat.pow_eq]
  omega

theorem bits_eq (x : Binary64) : x.bits.toNat = x.code + if x.isNegative then 2 ^ 63 else 0 := by
  have hlt : x.bits.toNat < 2 ^ 64 := x.bits.toNat_lt
  simp only [code, isNegative, decide_eq_true_eq, Nat.pow_eq]
  split <;> omega

theorem eq_of_code_eq (hsign : x.isNegative = y.isNegative) (h : x.code = y.code) : x = y := by
  have hbits : x.bits.toNat = y.bits.toNat := by rw [bits_eq, bits_eq, hsign, h]
  cases x
  cases y
  exact congrArg mk (UInt64.toNat_inj.mp hbits)

section

variable {c : Nat} (hc : c < 2 ^ 63)

include hc

theorem toNat_ofNat : (UInt64.ofNat c).toNat = c :=
  UInt64.toNat_ofNat_of_lt' (hc.trans (by decide))

theorem code_ofNat : code ⟨UInt64.ofNat c⟩ = c := by
  rw [code, toNat_ofNat hc, Nat.mod_eq_of_lt hc]

theorem isNegative_ofNat : isNegative ⟨UInt64.ofNat c⟩ = false := by
  rw [isNegative, toNat_ofNat hc, Nat.pow_eq, decide_eq_false_iff_not]
  omega

end

/-- The exponent starts at that of the smallest value. -/
theorem exponent_eq (x : Binary64) : x.exponent = (x.field - 1 : Nat) - 1074 := by
  rw [exponent]
  omega

theorem le_exponent (x : Binary64) : -1074 ≤ x.exponent := by
  rw [exponent_eq]
  omega

theorem significand_lt (x : Binary64) : x.significand < 2 ^ 53 := by
  have := x.fraction_lt
  simp only [significand, Nat.pow_eq]
  split <;> omega

/-- Above the smallest exponent there is the hidden one. -/
theorem le_significand (h : -1074 < x.exponent) : 2 ^ 52 ≤ x.significand := by
  rw [exponent_eq] at h
  rw [significand, if_neg (by omega), Nat.pow_eq]
  exact Nat.le_add_left _ _

theorem code_eq (x : Binary64) : x.code = (x.exponent + 1074).toNat * 2 ^ 52 + x.significand := by
  rw [code_eq_field, exponent_eq, significand]
  simp only [Nat.pow_eq]
  split <;> omega

theorem isFinite_iff : x.IsFinite ↔ x.code < 2047 * 2 ^ 52 := by
  have := x.field_lt
  have := x.fraction_lt
  rw [IsFinite, code_eq_field]
  omega

theorem isNaN_eq_false (hx : x.IsFinite) : x.isNaN = false := by
  simp [isNaN, show x.field ≠ 2047 from hx]

theorem isInfinite_eq_false (hx : x.IsFinite) : x.isInfinite = false := by
  simp [isInfinite, show x.field ≠ 2047 from hx]

theorem exponent_le (hx : x.IsFinite) : x.exponent ≤ 971 := by
  have := x.field_lt
  rw [IsFinite] at hx
  rw [exponent_eq]
  omega

/-! ## Order -/

theorem size_nonneg (x : Binary64) : 0 ≤ x.size := by
  unfold size
  positivity

theorem significand_eq_zero_iff : x.significand = 0 ↔ x.code = 0 := by
  rw [code_eq]
  constructor
  · intro h
    have hlow : ¬-1074 < x.exponent := fun hlow => by
      have := le_significand hlow
      omega
    omega
  · omega

theorem isZero_iff : x.isZero = true ↔ x.significand = 0 := by
  rw [significand_eq_zero_iff, code_eq_field, isZero, Bool.and_eq_true, beq_iff_eq, beq_iff_eq]
  omega

theorem size_eq_zero_iff : x.size = 0 ↔ x.significand = 0 := by
  rw [size, mul_eq_zero, Nat.cast_eq_zero, or_iff_left (zpow_ne_zero _ two_ne_zero)]

/-- No value but zero is below the smallest one. -/
theorem le_size (hx : x.significand ≠ 0) : (2 : ℚ) ^ (-1074 : Int) ≤ x.size :=
  calc (2 : ℚ) ^ (-1074 : Int) ≤ 2 ^ x.exponent := zpow_le_zpow_right₀ (by norm_num) x.le_exponent
    _ ≤ x.significand * 2 ^ x.exponent :=
        le_mul_of_one_le_left (by positivity) (by exact_mod_cast Nat.pos_of_ne_zero hx)

theorem size_lt_binade (x : Binary64) : x.size < 2 ^ 53 * 2 ^ x.exponent := by
  unfold size
  gcongr
  exact_mod_cast x.significand_lt

theorem size_lt (hx : x.IsFinite) : x.size < 2 ^ (1024 : Int) :=
  calc x.size < 2 ^ 53 * 2 ^ x.exponent := x.size_lt_binade
    _ ≤ 2 ^ 53 * 2 ^ (971 : Int) := by
        gcongr
        · norm_num
        · exact exponent_le hx
    _ = 2 ^ (1024 : Int) := by
        rw [show (1024 : Int) = (53 : Nat) + 971 from rfl, zpow_add₀ two_ne_zero, zpow_natCast]

/-- The larger code has the larger magnitude. -/
theorem size_lt_size (h : x.code < y.code) : x.size < y.size := by
  have hx := x.significand_lt
  have hy := y.significand_lt
  have hlowx := x.le_exponent
  have hlowy := y.le_exponent
  rw [code_eq, code_eq] at h
  rcases lt_trichotomy x.exponent y.exponent with hlt | heq | hgt
  · -- the hidden one of the larger exponent is above all smaller significands
    have hone : 2 ^ 52 ≤ y.significand := le_significand (by omega)
    calc x.size < 2 ^ 53 * 2 ^ x.exponent := x.size_lt_binade
      _ = 2 ^ 52 * 2 ^ (x.exponent + 1) := by rw [zpow_add_one₀ two_ne_zero]; ring
      _ ≤ 2 ^ 52 * 2 ^ y.exponent := by
          gcongr
          · norm_num
          · omega
      _ ≤ y.size := by
          unfold size
          gcongr
          exact_mod_cast hone
  · have hsignificand : x.significand < y.significand := by
      rw [heq] at h
      omega
    unfold size
    rw [heq]
    gcongr
  · have hone : 2 ^ 52 ≤ x.significand := le_significand (by omega)
    have : (y.exponent + 1074).toNat + 1 ≤ (x.exponent + 1074).toNat := by omega
    omega

theorem size_congr (h : x.code = y.code) : x.size = y.size := by
  have hx := x.fraction_lt
  have hy := y.fraction_lt
  rw [code_eq_field, code_eq_field] at h
  have hfield : x.field = y.field := by omega
  have hfraction : x.fraction = y.fraction := by omega
  simp only [size, significand, exponent, hfield, hfraction]

theorem size_lt_iff : x.size < y.size ↔ x.code < y.code := by
  refine ⟨fun h => ?_, size_lt_size⟩
  by_contra hle
  rcases (Nat.le_of_not_lt hle).lt_or_eq with hlt | heq
  · exact absurd (size_lt_size hlt) h.not_gt
  · exact absurd h (size_congr heq).not_gt

theorem size_le_iff : x.size ≤ y.size ↔ x.code ≤ y.code := by
  rw [← not_lt, size_lt_iff, not_lt]

theorem size_inj : x.size = y.size ↔ x.code = y.code := by
  rw [le_antisymm_iff, size_le_iff, size_le_iff, ← Nat.le_antisymm_iff]

end Unminify.Binary64
