import Unminify.Proofs.Number.DecimalLiteral
import Unminify.Proofs.Number.Shortest

/-!
# Numbers are read back

The text that is written for a finite number is a decimal literal that is read as the same number
(`Binary64.numeral_readBack`).

A number is written in one of three layouts, and each of them is the text of a literal that spells the
number's shortest decimal (`Decimal.exists_positional`, `Decimal.exists_exponential`). The number attracts
that decimal, so the literal is rounded to it again. Which layout is taken is told by the bits, which
are ordered as the numbers are (`Binary64.isPositional_iff`).
-/

namespace Unminify

/-! ## Layouts -/

namespace Decimal

theorem isDigit_of_mem_digits {n : Nat} {c : Char} (h : c ∈ digits n) : c.isDigit :=
  Nat.isDigit_of_mem_toDigits (by decide) (by decide) h

theorem natOfDigits_digits (n : Nat) : Numeral.natOfDigits (digits n) = n := by
  rw [digits, Numeral.natOfDigits_toDigits]

theorem isDigit_of_mem_zeros {n : Nat} {c : Char} (h : c ∈ List.replicate n '0') : c.isDigit := by
  rw [List.eq_of_mem_replicate h]
  rfl

/-- The digits of a number other than zero begin with another digit than zero. -/
theorem digits_eq_cons {n : Nat} (hn : n ≠ 0) : ∃ c cs, digits n = c :: cs ∧ c ≠ '0' := by
  induction n using Nat.strongRecOn with
  | ind n ih =>
    rcases Nat.lt_or_ge n 10 with hlt | hge
    · refine ⟨n.digitChar, [], Nat.toDigits_of_lt_base hlt, ?_⟩
      rwa [ne_eq, Nat.digitChar_eq_zero]
    · obtain ⟨c, cs, hcs, hc⟩ := ih (n / 10) (by omega) (by omega)
      refine ⟨c, cs ++ [(n % 10).digitChar], ?_, hc⟩
      rw [digits, Nat.toDigits_of_base_le (by decide) hge, ← digits, hcs, List.cons_append]

variable {d : Decimal} (hd : d.coefficient ≠ 0)

/-- All digits before the point, filled up with zeros. -/
def integerLiteral : DecimalLiteral where
  whole := digits d.coefficient ++ List.replicate d.exponent.toNat '0'
  places := []
  power? := none
  whole_digits := fun _ h => (List.mem_append.mp h).elim isDigit_of_mem_digits isDigit_of_mem_zeros
  places_digits := nofun
  whole_head := by
    obtain ⟨c, cs, hdigits, hc⟩ := digits_eq_cons hd
    exact .inr ⟨c, _, by rw [hdigits, List.cons_append], hc⟩

/-- The point among the digits. -/
def pointedLiteral (hpoint : 0 < d.pointAt) : DecimalLiteral where
  whole := (digits d.coefficient).take d.pointAt.toNat
  places := (digits d.coefficient).drop d.pointAt.toNat
  power? := none
  whole_digits := fun _ h => isDigit_of_mem_digits (List.mem_of_mem_take h)
  places_digits := fun _ h => isDigit_of_mem_digits (List.mem_of_mem_drop h)
  whole_head := by
    obtain ⟨c, cs, hdigits, hc⟩ := digits_eq_cons hd
    obtain ⟨n, hn⟩ : ∃ n, d.pointAt.toNat = n + 1 := ⟨d.pointAt.toNat - 1, by omega⟩
    exact .inr ⟨c, _, by rw [hdigits, hn, List.take_succ_cons], hc⟩

/-- All digits after the point, and zeros before them. -/
def fractionLiteral (d : Decimal) : DecimalLiteral where
  whole := ['0']
  places := List.replicate (-d.pointAt).toNat '0' ++ digits d.coefficient
  power? := none
  whole_digits := by simp
  places_digits := fun _ h => (List.mem_append.mp h).elim isDigit_of_mem_zeros isDigit_of_mem_digits
  whole_head := .inl rfl

/-- One digit before the point, and an exponent. -/
def exponentLiteral : DecimalLiteral where
  whole := (digits d.coefficient).take 1
  places := (digits d.coefficient).drop 1
  power? := some d.power
  whole_digits := fun _ h => isDigit_of_mem_digits (List.mem_of_mem_take h)
  places_digits := fun _ h => isDigit_of_mem_digits (List.mem_of_mem_drop h)
  whole_head := by
    obtain ⟨c, cs, hdigits, hc⟩ := digits_eq_cons hd
    exact .inr ⟨c, [], by rw [hdigits]; rfl, hc⟩

theorem value_integerLiteral (h : 0 ≤ d.exponent) : (integerLiteral hd).decimal.value = d.value := by
  obtain ⟨n, hn⟩ := Int.eq_ofNat_of_zero_le h
  have hread : Numeral.natOfDigits (digits d.coefficient ++ List.replicate n '0') = 10 ^ n * d.coefficient := by
    rw [Numeral.natOfDigits_eq, Nat.ofDigitChars_append, Nat.ofDigitChars_replicate_zero, digits, Nat.ofDigitChars_ten_toDigits]
  simp only [DecimalLiteral.decimal, integerLiteral, value, hn, Int.toNat_natCast, List.append_nil, hread]
  simp [mul_comm]

theorem decimal_pointedLiteral (hpoint : 0 < d.pointAt) (h : d.exponent ≤ 0) : (pointedLiteral hd hpoint).decimal = d := by
  have hexponent : (0 : Int) - ((digits d.coefficient).length - d.pointAt.toNat : Nat) = d.exponent := by
    simp only [pointAt] at *
    omega
  simp only [DecimalLiteral.decimal, pointedLiteral, List.take_append_drop, natOfDigits_digits, List.length_drop,
    Option.getD_none, hexponent]

theorem decimal_fractionLiteral (h : d.pointAt ≤ 0) : (fractionLiteral d).decimal = d := by
  have hexponent : (0 : Int) - ((-d.pointAt).toNat + (digits d.coefficient).length : Nat) = d.exponent := by
    simp only [pointAt] at *
    omega
  have hzeros : Numeral.natOfDigits (List.replicate ((-d.pointAt).toNat + 1) '0' ++ digits d.coefficient) = d.coefficient := by
    rw [Numeral.natOfDigits_eq, Nat.ofDigitChars_append, Nat.ofDigitChars_replicate_zero, Nat.mul_zero, digits,
      Nat.ofDigitChars_ten_toDigits]
  rw [List.replicate_succ, List.cons_append] at hzeros
  simp only [DecimalLiteral.decimal, fractionLiteral, List.singleton_append, hzeros, List.length_append,
    List.length_replicate, Option.getD_none, hexponent]

theorem decimal_exponentLiteral : (exponentLiteral hd).decimal = d := by
  obtain ⟨c, cs, hdigits, -⟩ := digits_eq_cons hd
  have hexponent : d.power - ((digits d.coefficient).length - 1 : Nat) = d.exponent := by
    have : (digits d.coefficient).length = cs.length + 1 := by rw [hdigits, List.length_cons]
    simp only [power, pointAt]
    omega
  simp only [DecimalLiteral.decimal, exponentLiteral, List.take_append_drop, natOfDigits_digits, List.length_drop,
    Option.getD_some, hexponent]

include hd

/-- A decimal that is written out is a literal without exponent. -/
theorem exists_positional :
    ∃ l : DecimalLiteral, d.positional.toList = l.text ∧ l.power? = none ∧ l.decimal.value = d.value := by
  rcases Int.lt_or_le d.exponent 0 with hneg | hnonneg
  · rcases Int.lt_or_le 0 d.pointAt with hpoint | hpoint
    · refine ⟨pointedLiteral hd hpoint, ?_, rfl, by rw [decimal_pointedLiteral hd hpoint hneg.le]⟩
      obtain ⟨c, cs, hplaces⟩ : ∃ c cs, (digits d.coefficient).drop d.pointAt.toNat = c :: cs := by
        refine List.exists_cons_of_ne_nil (List.drop_eq_nil_iff.not.mpr ?_)
        simp only [pointAt] at *
        omega
      simp only [positional, if_neg hneg.not_ge, if_pos hpoint, String.toList_ofList, DecimalLiteral.text,
        pointedLiteral, hplaces, Numeral.placesText, DecimalLiteral.powerText, List.append_nil]
    · refine ⟨fractionLiteral d, ?_, rfl, by rw [decimal_fractionLiteral hpoint]⟩
      have hpoint' : ¬0 < d.pointAt := hpoint.not_gt
      obtain ⟨c, cs, hplaces⟩ : ∃ c cs, List.replicate (-d.pointAt).toNat '0' ++ digits d.coefficient = c :: cs :=
        List.exists_cons_of_ne_nil (List.append_ne_nil_of_right_ne_nil _ Nat.toDigits_ne_nil)
      simp only [positional, if_neg hneg.not_ge, if_neg hpoint', String.toList_ofList, DecimalLiteral.text,
        fractionLiteral, hplaces, Numeral.placesText, DecimalLiteral.powerText, List.append_nil, List.cons_append,
        List.nil_append]
  · refine ⟨integerLiteral hd, ?_, rfl, value_integerLiteral hd hnonneg⟩
    simp only [positional, if_pos hnonneg, String.toList_ofList, DecimalLiteral.text, integerLiteral,
      Numeral.placesText, DecimalLiteral.powerText, List.append_nil]

/-- A decimal that is written with an exponent is a literal with that exponent. -/
theorem exists_exponential : ∃ l : DecimalLiteral,
    (d.mantissa ++ "e" ++ (if 0 ≤ d.power then "+" else "-") ++ toString d.power.natAbs).toList = l.text ∧
      l.power? = some d.power ∧ l.decimal.value = d.value := by
  refine ⟨exponentLiteral hd, ?_, rfl, by rw [decimal_exponentLiteral hd]⟩
  obtain ⟨c, cs, hdigits, -⟩ := digits_eq_cons hd
  have hmantissa : d.mantissa.toList = [c] ++ Numeral.placesText cs := by
    rw [mantissa, hdigits]
    cases cs <;> simp [Numeral.placesText]
  have hnumber : (toString d.power.natAbs).toList = Nat.toDigits 10 d.power.natAbs := Nat.toList_repr
  have hsign : (if 0 ≤ d.power then "+" else "-").toList = [if 0 ≤ d.power then '+' else '-'] := by split <;> rfl
  simp only [String.toList_append, hmantissa, hnumber, hsign, DecimalLiteral.text, exponentLiteral, hdigits,
    DecimalLiteral.powerText]
  simp

end Decimal

namespace Binary64

variable {x : Binary64}

/-! ## Bounds of the layouts -/

theorem value_eq_size (hsign : x.isNegative = false) : x.value = x.size := if_neg (by simp [hsign])

/-- The upper bound is a value. -/
theorem value_ofDecimal_sextillion : (ofDecimal 1 21).value = 10 ^ 21 := by
  have hbits : ofDecimal 1 21 = ⟨0x444b1ae4d6e2ef50⟩ := by rfl
  have hsignificand : significand ⟨0x444b1ae4d6e2ef50⟩ = 7629394531250000 := by rfl
  have hexponent : exponent ⟨0x444b1ae4d6e2ef50⟩ = 17 := by rfl
  rw [hbits, value_eq_size rfl, size, hsignificand, hexponent]
  norm_num

/-- A positive number is written out if it is between the two bounds. -/
theorem isPositional_iff (hsign : x.isNegative = false) :
    x.isPositional = true ↔ (ofDecimal 1 (-6)).value ≤ x.value ∧ x.value < 10 ^ 21 := by
  have hcode {y : Binary64} (h : y.isNegative = false) : y.bits.toNat = y.code := by
    rw [bits_eq, h]
    rfl
  rw [← value_ofDecimal_sextillion, isPositional, Bool.and_eq_true, decide_eq_true_eq, decide_eq_true_eq,
    UInt64.le_iff_toNat_le, UInt64.lt_iff_toNat_lt, hcode hsign, hcode (y := ofDecimal 1 (-6)) rfl,
    hcode (y := ofDecimal 1 21) rfl, ← size_le_iff, ← size_lt_iff, value_eq_size hsign, value_eq_size rfl,
    value_eq_size rfl]

/-! ## Texts -/

/-- A positive number is written as a literal that spells its shortest decimal. -/
theorem exists_literal (hfinite : x.IsFinite) (hx : x.significand ≠ 0) : ∃ l : DecimalLiteral,
    x.positiveNumeral.toList = l.text ∧ (l.power?.isSome ↔ ¬x.isPositional = true) ∧
      l.decimal.value = x.shortest.value := by
  obtain ⟨hcoefficient, -⟩ := attracts_shortest hfinite hx
  by_cases hpositional : x.isPositional = true
  · obtain ⟨l, htext, hpower, hvalue⟩ := Decimal.exists_positional hcoefficient
    refine ⟨l, ?_, ?_, hvalue⟩
    · rw [positiveNumeral, if_pos hpositional, htext]
    · simp [hpower, hpositional]
  · obtain ⟨l, htext, hpower, hvalue⟩ := Decimal.exists_exponential hcoefficient
    refine ⟨l, ?_, ?_, hvalue⟩
    · rw [positiveNumeral, if_neg hpositional, htext]
    · simp [hpower, hpositional]

theorem magnitude_eq (hsign : x.isNegative = false) : x.magnitude = x := by
  have hcode : x.code < 2 ^ 63 := Nat.mod_lt _ (by decide)
  exact eq_of_code_eq ((isNegative_ofNat hcode).trans hsign.symm) (code_ofNat hcode)

/-- **Every finite number that is not negative is read back from its text.** The text is a decimal literal,
has an exponent only for numbers other than zero that are smaller than one millionth (the value nearest to
it) or not smaller than `10 ^ 21`, and is not taken for a numeral of another form. -/
theorem numeral_readBack (hfinite : x.IsFinite) (hnonneg : 0 ≤ x.value) :
    (∃ l : DecimalLiteral, x.numeral.toList = l.text ∧
      (l.power?.isSome ↔ x.value ≠ 0 ∧ (x.value < (ofDecimal 1 (-6)).value ∨ 10 ^ 21 ≤ x.value))) ∧
    Numeral.form x.numeral = .decimal ∧
    ∃ y : Binary64, Numeral.read? x.numeral = some (.number y) ∧ y.IsFinite ∧ y.value = x.value := by
  have hnan := isNaN_eq_false hfinite
  have hinfinite := isInfinite_eq_false hfinite
  by_cases hzero : x.isZero = true
  · have hsize : x.size = 0 := size_eq_zero_iff.mpr (isZero_iff.mp hzero)
    have hvalue : x.value = 0 := by simp [value, hsize]
    have hnumeral : x.numeral = "0" := by simp [numeral, hnan, hzero]
    rw [hnumeral, hvalue]
    refine ⟨⟨⟨['0'], [], none, by simp, nofun, .inl rfl⟩, rfl, by simp⟩, by rfl, zero, by rfl, by decide, ?_⟩
    rw [value_eq_size rfl, size_eq_zero_iff]
    rfl
  · have hx : x.significand ≠ 0 := fun h => hzero (isZero_iff.mpr h)
    have hsize : 0 < x.size := x.size_nonneg.lt_of_ne fun h => hx (size_eq_zero_iff.mp h.symm)
    have hsign : x.isNegative = false := by
      by_contra h
      rw [value, if_pos (Bool.eq_true_of_not_eq_false h)] at hnonneg
      linarith
    obtain ⟨l, htext, hpower, hdecimal⟩ := exists_literal hfinite hx
    have hnumeral : x.numeral = String.ofList l.text := by
      simp [numeral, hnan, hzero, hinfinite, hsign, magnitude_eq hsign, ← htext]
    have hread : ofDecimal l.decimal.coefficient l.decimal.exponent = x := by
      refine ofDecimal_eq hfinite hsign hx ?_
      rw [← Decimal.value, hdecimal]
      exact (attracts_shortest hfinite hx).2
    have hvalue : x.value ≠ 0 := value_eq_size hsign ▸ hsize.ne'
    rw [hnumeral]
    refine ⟨⟨l, String.toList_ofList, ?_⟩, l.form_text, x, by rw [l.read?_text, hread], hfinite, rfl⟩
    rw [hpower, isPositional_iff hsign, not_and_or, not_le, not_lt, and_iff_right hvalue]

/-- The smallest positive number. -/
def smallest : Binary64 := ⟨1⟩

example : smallest.numeral = "5e-324" := by decide +kernel

theorem numeral_readBack_smallest : smallest.IsFinite ∧ 0 ≤ smallest.value ∧
    (∃ l : DecimalLiteral, smallest.numeral.toList = l.text ∧
      (l.power?.isSome ↔
        smallest.value ≠ 0 ∧ (smallest.value < (ofDecimal 1 (-6)).value ∨ 10 ^ 21 ≤ smallest.value))) ∧
    Numeral.form smallest.numeral = .decimal ∧
    ∃ y : Binary64, Numeral.read? smallest.numeral = some (.number y) ∧ y.IsFinite ∧ y.value = smallest.value := by
  have hfinite : smallest.IsFinite := by decide
  have hnonneg : 0 ≤ smallest.value := by
    rw [value_eq_size rfl]
    exact smallest.size_nonneg
  exact ⟨hfinite, hnonneg, numeral_readBack hfinite hnonneg⟩

end Binary64

end Unminify
