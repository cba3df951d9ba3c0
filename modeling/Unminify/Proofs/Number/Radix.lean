import Unminify.Number.Numeral
import Unminify.Proofs.Number.Rounding

/-!
# Radix literals

The digits of a radix literal are accumulated with a rounding after each product and each sum. Where the
number that the digits denote is a value, none of them changes anything, and the literal is read as that
value (`Numeral.radix?_eq`).

The natural numbers that are values are those with at most 53 significant bits (`Short`), below the largest
value. Dropping digits at the end of a number in a radix that is a power of two leaves it with no more
significant bits, so that every number on the way to a value is a value too (`Short.div`).

Of a number with more bits nothing of the kind holds: a half that an early step rounds down is lost to the
steps after it, and the result may be the neighbour of the nearest value.
-/

namespace Unminify

/-! ## Natural numbers that are values -/

/-- At most 53 significant bits. -/
def Short (n : Nat) : Prop := ∃ m k, m < 2 ^ 53 ∧ n = m * 2 ^ k

namespace Short

variable {n : Nat} (h : Short n)

include h

theorem mul (j : Nat) : Short (n * 2 ^ j) := by
  obtain ⟨m, k, hm, rfl⟩ := h
  exact ⟨m, k + j, hm, by rw [pow_add, mul_assoc]⟩

theorem div (j : Nat) : Short (n / 2 ^ j) := by
  obtain ⟨m, k, hm, rfl⟩ := h
  rcases Nat.le_total j k with hle | hle
  · obtain ⟨i, rfl⟩ := Nat.exists_eq_add_of_le hle
    refine ⟨m, i, hm, ?_⟩
    rw [pow_add, mul_left_comm, Nat.mul_div_cancel_left _ (by positivity)]
  · obtain ⟨i, rfl⟩ := Nat.exists_eq_add_of_le hle
    refine ⟨m / 2 ^ i, 0, (Nat.div_le_self _ _).trans_lt hm, ?_⟩
    rw [pow_add, ← Nat.div_div_eq_div_mul, Nat.mul_div_cancel _ (by positivity), pow_zero, mul_one]

end Short

namespace Binary64

/-- A value that is a natural number. -/
structure Denotes (x : Binary64) (n : Nat) : Prop where
  finite : x.IsFinite
  sign : x.isNegative = false
  size_eq : x.size = n

variable {x y : Binary64} {n : Nat}

theorem Denotes.unique (hx : x.Denotes n) (hy : y.Denotes n) : x = y :=
  eq_of_code_eq (hx.sign.trans hy.sign.symm) (size_inj.mp (hx.size_eq.trans hy.size_eq.symm))

theorem Denotes.lt (hx : x.Denotes n) : (n : ℚ) < 2 ^ (1024 : Int) :=
  hx.size_eq ▸ size_lt hx.finite

theorem Denotes.short (hx : x.Denotes n) : Short n := by
  have hsize := hx.size_eq
  rcases Int.lt_or_le x.exponent 0 with hneg | hnonneg
  · refine ⟨n, 0, ?_, by simp⟩
    have hle : (2 : ℚ) ^ x.exponent ≤ 1 := zpow_le_one_of_nonpos₀ (by norm_num) hneg.le
    have : (n : ℚ) < 2 ^ 53 := by
      calc (n : ℚ) = x.size := hsize.symm
        _ < 2 ^ 53 * 2 ^ x.exponent := x.size_lt_binade
        _ ≤ 2 ^ 53 := mul_le_of_le_one_right (by norm_num) hle
    exact_mod_cast this
  · obtain ⟨k, hk⟩ := Int.eq_ofNat_of_zero_le hnonneg
    refine ⟨x.significand, k, x.significand_lt, ?_⟩
    rw [size, hk, zpow_natCast] at hsize
    exact_mod_cast hsize.symm

/-- Each significand with each exponent is a value, if it is not beyond the largest one. -/
theorem exists_size {t s : Nat} (hs : s < 2 ^ 53) (hone : t = 0 ∨ 2 ^ 52 ≤ s) (hcode : t * 2 ^ 52 + s < 2047 * 2 ^ 52) :
    ∃ x : Binary64, x.IsFinite ∧ x.isNegative = false ∧ x.size = s * 2 ^ ((t : Int) - 1074) := by
  have hlt : t * 2 ^ 52 + s < 2 ^ 63 := by omega
  refine ⟨⟨UInt64.ofNat (t * 2 ^ 52 + s)⟩, ?_, isNegative_ofNat hlt, ?_⟩
  · rw [isFinite_iff, code_ofNat hlt]
    exact hcode
  · have hback := code_ofNat hlt
    generalize (⟨UInt64.ofNat (t * 2 ^ 52 + s)⟩ : Binary64) = x at hback ⊢
    rw [code_eq] at hback
    have hsignificand := x.significand_lt
    have hlow := x.le_exponent
    have hone' : x.exponent = -1074 ∨ 2 ^ 52 ≤ x.significand :=
      hlow.eq_or_lt.imp Eq.symm le_significand
    have hexponent : (x.exponent + 1074).toNat = t := by omega
    rw [size, show x.significand = s by omega, show x.exponent = t - 1074 by omega]

theorem exists_denotes (hshort : Short n) (hlt : (n : ℚ) < 2 ^ (1024 : Int)) : ∃ x : Binary64, x.Denotes n := by
  obtain ⟨m, k, hm, rfl⟩ := hshort
  rcases m.eq_zero_or_pos with rfl | hpos
  · exact ⟨zero, by decide, by rfl, by rw [size_eq_zero_iff.mpr rfl, Nat.zero_mul, Nat.cast_zero]⟩
  have hlow := Nat.log2_self_le hpos.ne'
  have hhigh : m < 2 ^ (m.log2 + 1) := Nat.lt_log2_self
  have hbits : m.log2 ≤ 52 := by
    have : 2 ^ m.log2 < 2 ^ 53 := hlow.trans_lt hm
    have := (Nat.pow_lt_pow_iff_right (by decide)).mp this
    omega
  have hexponent : ((m.log2 + k : Nat) : Int) < 1024 := by
    refine (zpow_lt_zpow_iff_right₀ (one_lt_two : (1 : ℚ) < 2)).mp (lt_of_le_of_lt ?_ hlt)
    rw [zpow_natCast, pow_add, Nat.cast_mul, Nat.cast_pow, Nat.cast_ofNat]
    gcongr
    exact_mod_cast hlow
  -- the significand is shifted until the hidden one is in its place
  have hone : 2 ^ 52 ≤ m * 2 ^ (52 - m.log2) := by
    calc 2 ^ 52 = 2 ^ m.log2 * 2 ^ (52 - m.log2) := by rw [← pow_add, Nat.add_sub_cancel' hbits]
      _ ≤ m * 2 ^ (52 - m.log2) := Nat.mul_le_mul_right _ hlow
  have hshort : m * 2 ^ (52 - m.log2) < 2 ^ 53 := by
    calc m * 2 ^ (52 - m.log2) < 2 ^ (m.log2 + 1) * 2 ^ (52 - m.log2) :=
          Nat.mul_lt_mul_of_pos_right hhigh (by positivity)
      _ = 2 ^ 53 := by rw [← pow_add]; congr 1; omega
  obtain ⟨x, hfinite, hsign, hsize⟩ :=
    exists_size (t := k + m.log2 + 1022) hshort (.inr hone) (by omega)
  refine ⟨x, hfinite, hsign, ?_⟩
  have hshift : ((52 - m.log2 : Nat) : Int) + (((k + m.log2 + 1022 : Nat) : Int) - 1074) = k := by omega
  rw [hsize, Nat.cast_mul, Nat.cast_pow, Nat.cast_ofNat, mul_assoc, ← zpow_natCast, ← zpow_add₀ two_ne_zero, hshift,
    zpow_natCast]
  push_cast
  rfl

/-! ## Steps that do not round -/

theorem Denotes.mulNat {a k : Nat} (hx : x.Denotes a) (hy : y.Denotes (a * k)) : x.mulNat k = y := by
  obtain ⟨hden, hsize⟩ := x.ratio_eq
  rw [Binary64.mulNat, if_neg (by simp [isInfinite_eq_false hx.finite])]
  change ofRatio (x.ratio.1 * k) x.ratio.2 = y
  refine ofRatio_of_size hden hy.finite hy.sign ?_
  rw [Nat.cast_mul, mul_div_right_comm, hsize, hx.size_eq, hy.size_eq, Nat.cast_mul]

theorem Denotes.addNat {a k : Nat} (hx : x.Denotes a) (hy : y.Denotes (a + k)) : x.addNat k = y := by
  obtain ⟨hden, hsize⟩ := x.ratio_eq
  rw [Binary64.addNat, if_neg (by simp [isInfinite_eq_false hx.finite])]
  change ofRatio (x.ratio.1 + k * x.ratio.2) x.ratio.2 = y
  refine ofRatio_of_size hden hy.finite hy.sign ?_
  have hden' : (x.ratio.2 : ℚ) ≠ 0 := by exact_mod_cast hden.ne'
  rw [Nat.cast_add, Nat.cast_mul, add_div, hsize, mul_div_cancel_right₀ _ hden', hx.size_eq, hy.size_eq, Nat.cast_add]

end Binary64

namespace Numeral

/-! ## Literals -/

/-- The natural number that digits in a radix denote after a number. -/
def natOfRadix? (radix : Nat) (n : Nat) (cs : List Char) : Option Nat :=
  cs.foldlM (fun n c => (digit? radix c).map (n * radix + ·)) n

theorem digit?_lt {radix d : Nat} {c : Char} (h : digit? radix c = some d) : d < radix := by
  have := (Option.filter_eq_some_iff.mp h).2
  simpa using this

/-- Dropping the digits leaves the number before them. -/
theorem natOfRadix?_div {k a n : Nat} {cs : List Char} (h : natOfRadix? (2 ^ k) a cs = some n) :
    n / 2 ^ (k * cs.length) = a := by
  induction cs generalizing a with
  | nil =>
    obtain rfl : a = n := Option.some.inj h
    simp
  | cons c cs ih =>
    simp only [natOfRadix?, List.foldlM_cons, Option.bind_eq_bind, Option.bind_eq_some_iff, Option.map_eq_some_iff] at h
    obtain ⟨-, ⟨d, hd, rfl⟩, h⟩ := h
    rw [List.length_cons, Nat.mul_succ, pow_add, ← Nat.div_div_eq_div_mul, ih h,
      Nat.mul_comm, Nat.mul_add_div (by positivity), Nat.div_eq_of_lt (digit?_lt hd), Nat.add_zero]

/-- Every step on the way to a value is a value. -/
theorem foldlM_radix {k a n : Nat} {cs : List Char} (h : natOfRadix? (2 ^ k) a cs = some n) {x y : Binary64}
    (hx : x.Denotes a) (hy : y.Denotes n) :
    cs.foldlM (fun acc c => (digit? (2 ^ k) c).map (acc.mulNat (2 ^ k)).addNat) x = some y := by
  induction cs generalizing a x with
  | nil =>
    obtain rfl : a = n := Option.some.inj h
    exact congrArg some (hx.unique hy)
  | cons c cs ih =>
    simp only [natOfRadix?, List.foldlM_cons, Option.bind_eq_bind, Option.bind_eq_some_iff, Option.map_eq_some_iff] at h
    obtain ⟨-, ⟨d, hd, rfl⟩, h⟩ := h
    have hprefix := natOfRadix?_div h
    have hbefore : (a * 2 ^ k + d) / 2 ^ k = a := by
      rw [Nat.mul_comm, Nat.mul_add_div (by positivity), Nat.div_eq_of_lt (digit?_lt hd), Nat.add_zero]
    have hshort : Short (a * 2 ^ k + d) := hprefix ▸ hy.short.div _
    have hle : a * 2 ^ k + d ≤ n := hprefix ▸ Nat.div_le_self _ _
    have hlt {b : Nat} (hb : b ≤ n) : (b : ℚ) < 2 ^ (1024 : Int) := (Nat.cast_le.mpr hb).trans_lt hy.lt
    obtain ⟨u, hu⟩ := Binary64.exists_denotes ((hbefore ▸ hshort.div k : Short a).mul k) (hlt (by omega))
    obtain ⟨v, hv⟩ := Binary64.exists_denotes hshort (hlt hle)
    rw [List.foldlM_cons, hd, Option.map_some, hx.mulNat hu, hu.addNat hv]
    exact ih h hv

/-- A radix literal is read exactly where its number is a value. -/
theorem radix?_eq {k n : Nat} {cs : List Char} (hcs : cs ≠ []) (h : natOfRadix? (2 ^ k) 0 cs = some n) {x : Binary64}
    (hx : x.Denotes n) : radix? (2 ^ k) cs = some x := by
  have hzero : Binary64.zero.Denotes 0 :=
    ⟨by decide, by rfl, by rw [Binary64.size_eq_zero_iff.mpr rfl, Nat.cast_zero]⟩
  cases cs with
  | nil => contradiction
  | cons c cs => exact foldlM_radix h hzero hx

/-- Beyond 53 bits a literal may be read as a neighbour of the nearest value: the half that is dropped after
fourteen digits is missing when the last digit is added. -/
example : radix? 16 "200000000000011".toList = some ⟨0x4380000000000000⟩ ∧
    Binary64.ofNat 0x200000000000011 = ⟨0x4380000000000001⟩ := by decide +kernel

end Numeral

end Unminify
