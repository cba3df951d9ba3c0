import Unminify.Number.Numeral
import Unminify.Proofs.Number.Decimal

/-!
# Decimal literals

A decimal literal of the language is digits with no leading zero in front of other digits, a point with
digits after it, and an exponent, the last two optional (`DecimalLiteral`). Its text is read as the value
nearest to the decimal that it spells (`DecimalLiteral.read?_text`).

The reader looks at the beginning and the end of a text before it takes it for a decimal. `Numeral.form`
is that decision on its own (`Numeral.read?_eq`), and the text of a literal always passes as a decimal
(`DecimalLiteral.form_text`): a zero in front is followed by nothing, by the point or by the exponent.
-/

namespace Unminify

/-! ## Forms of numerals -/

namespace Numeral

/-- What a number literal is taken for. -/
inductive Form
  | bigInt
  | hexadecimal
  | octal
  | binary
  /-- A zero before digits alone. -/
  | legacyOctal
  | decimal
deriving DecidableEq, Repr

/-- The text of a literal without separators. -/
abbrev unseparated (text : String) : List Char := text.toList.filter (· != '_')

/-- What a literal is taken for, by its beginning and its end. -/
def form (text : String) : Form :=
  if (unseparated text).getLast? = some 'n' then .bigInt
  else
    match (unseparated text).map Char.toLower with
    | '0' :: 'x' :: _ => .hexadecimal
    | '0' :: 'o' :: _ => .octal
    | '0' :: 'b' :: _ => .binary
    | '0' :: d :: ds => if (d :: ds).all Char.isDigit then .legacyOctal else .decimal
    | _ => .decimal

/-- The reader follows the form. -/
theorem read?_eq (text : String) : read? text =
    let lower := (unseparated text).map Char.toLower
    match form text with
    | .bigInt => some (.bigInt (String.ofList (unseparated text).dropLast))
    | .hexadecimal => number <$> radix? 16 (lower.drop 2)
    | .octal => number <$> radix? 8 (lower.drop 2)
    | .binary => number <$> radix? 2 (lower.drop 2)
    | .legacyOctal => number <$> (radix? 8 (lower.drop 1) <|> decimal? lower)
    | .decimal => number <$> decimal? lower := by
  by_cases hbig : (unseparated text).getLast? = some 'n'
  · rw [form, if_pos hbig]
    exact if_pos hbig
  · rw [form, if_neg hbig]
    refine (if_neg hbig).trans ?_
    generalize (unseparated text).map Char.toLower = lower
    split
    case h_4 d ds hx ho hb =>
      simp only
      cases (d :: ds).all Char.isDigit <;> rfl
    all_goals simp_all

/-- The exponent after the digits of a decimal. -/
def power? : List Char → Option Int
  | [] => some 0
  | 'e' :: '-' :: ds => if !ds.isEmpty && ds.all Char.isDigit then some (-(natOfDigits ds : Int)) else none
  | 'e' :: '+' :: ds => if !ds.isEmpty && ds.all Char.isDigit then some (natOfDigits ds) else none
  | 'e' :: ds => if !ds.isEmpty && ds.all Char.isDigit then some (natOfDigits ds) else none
  | _ => none

/-- The places with the point before them. -/
def placesText : List Char → List Char
  | [] => []
  | c :: cs => '.' :: c :: cs

/-- The places at the beginning of what follows the whole digits, and what follows them. -/
def placesAt : List Char → List Char × List Char
  | '.' :: rest => (rest.takeWhile Char.isDigit, rest.dropWhile Char.isDigit)
  | rest => ([], rest)

/-- A decimal is read part by part. -/
theorem decimal?_eq (cs : List Char) : decimal? cs =
    let whole := cs.takeWhile Char.isDigit
    let (places, rest) := placesAt (cs.dropWhile Char.isDigit)
    if whole.isEmpty && places.isEmpty then none
    else (power? rest).map fun e => Binary64.ofDecimal (natOfDigits (whole ++ places)) (e - places.length) :=
  rfl

theorem placesAt_append {places rest : List Char} (hplaces : ∀ c ∈ places, c.isDigit)
    (hrest : rest = [] ∨ ∃ ds, rest = 'e' :: ds) : placesAt (placesText places ++ rest) = (places, rest) := by
  have hend : rest.takeWhile Char.isDigit = [] ∧ rest.dropWhile Char.isDigit = rest := by
    obtain rfl | ⟨ds, rfl⟩ := hrest <;> exact ⟨rfl, rfl⟩
  cases places with
  | nil => obtain rfl | ⟨ds, rfl⟩ := hrest <;> rfl
  | cons c cs =>
    change ((c :: cs ++ rest).takeWhile Char.isDigit, (c :: cs ++ rest).dropWhile Char.isDigit) = _
    rw [List.takeWhile_append_of_pos hplaces, List.dropWhile_append_of_pos hplaces, hend.1, hend.2, List.append_nil]

theorem decimal?_append {whole places rest : List Char} (hwhole : ∀ c ∈ whole, c.isDigit) (hne : whole ≠ [])
    (hplaces : ∀ c ∈ places, c.isDigit) (hrest : rest = [] ∨ ∃ ds, rest = 'e' :: ds) :
    decimal? (whole ++ (placesText places ++ rest)) =
      (power? rest).map fun e => Binary64.ofDecimal (natOfDigits (whole ++ places)) (e - places.length) := by
  have hpoint : (placesText places ++ rest).takeWhile Char.isDigit = [] ∧
      (placesText places ++ rest).dropWhile Char.isDigit = placesText places ++ rest := by
    cases places with
    | nil => obtain rfl | ⟨ds, rfl⟩ := hrest <;> exact ⟨rfl, rfl⟩
    | cons c cs => exact ⟨rfl, rfl⟩
  simp only [decimal?_eq, List.takeWhile_append_of_pos hwhole, List.dropWhile_append_of_pos hwhole, hpoint,
    placesAt_append hplaces hrest, List.append_nil, List.isEmpty_eq_false_iff.mpr hne, Bool.false_and,
    Bool.false_eq_true, if_false]

theorem natOfDigits_eq (cs : List Char) : natOfDigits cs = Nat.ofDigitChars 10 cs 0 := by
  simp only [natOfDigits, Nat.ofDigitChars, Nat.mul_comm]

theorem natOfDigits_toDigits (n : Nat) : natOfDigits (Nat.toDigits 10 n) = n := by
  rw [natOfDigits_eq, Nat.ofDigitChars_ten_toDigits]

end Numeral

/-! ## Literals -/

/-- A decimal literal in its parts. The point stands only before digits, and the exponent has a sign. -/
structure DecimalLiteral where
  whole : List Char
  places : List Char
  power? : Option Int
  whole_digits : ∀ c ∈ whole, c.isDigit
  places_digits : ∀ c ∈ places, c.isDigit
  /-- A zero in front stands alone before the point. -/
  whole_head : whole = ['0'] ∨ ∃ c cs, whole = c :: cs ∧ c ≠ '0'

namespace DecimalLiteral

/-- An exponent with its sign. -/
def powerText : Option Int → List Char
  | none => []
  | some p => 'e' :: (if 0 ≤ p then '+' else '-') :: Nat.toDigits 10 p.natAbs

def text (l : DecimalLiteral) : List Char := l.whole ++ Numeral.placesText l.places ++ powerText l.power?

/-- The decimal that a literal spells. -/
def decimal (l : DecimalLiteral) : Decimal :=
  ⟨Numeral.natOfDigits (l.whole ++ l.places), l.power?.getD 0 - l.places.length⟩

theorem power?_powerText (p? : Option Int) : Numeral.power? (powerText p?) = some (p?.getD 0) := by
  cases p? with
  | none => rfl
  | some p =>
    have hall : (!(Nat.toDigits 10 p.natAbs).isEmpty && (Nat.toDigits 10 p.natAbs).all Char.isDigit) = true := by
      rw [Bool.and_eq_true, Bool.not_eq_true', List.isEmpty_eq_false_iff, List.all_eq_true]
      exact ⟨Nat.toDigits_ne_nil, fun c hc => Nat.isDigit_of_mem_toDigits (by decide) (by decide) hc⟩
    by_cases hp : 0 ≤ p
    · rw [powerText, if_pos hp, Numeral.power?, if_pos hall, Numeral.natOfDigits_toDigits, Int.natAbs_of_nonneg hp]
      rfl
    · rw [powerText, if_neg hp, Numeral.power?, if_pos hall, Numeral.natOfDigits_toDigits, Option.getD_some]
      congr 1
      omega

variable (l : DecimalLiteral)

theorem mem_powerText {p? : Option Int} {c : Char} (h : c ∈ powerText p?) :
    c.isDigit ∨ c ∈ ['.', 'e', '+', '-'] := by
  cases p? with
  | none => cases h
  | some p =>
    rw [powerText, List.mem_cons, List.mem_cons] at h
    obtain rfl | rfl | h := h
    · simp
    · split <;> simp
    · exact .inl (Nat.isDigit_of_mem_toDigits (by decide) (by decide) h)

theorem mem_text {c : Char} (h : c ∈ l.text) : c.isDigit ∨ c ∈ ['.', 'e', '+', '-'] := by
  rw [text, List.mem_append, List.mem_append] at h
  obtain (h | h) | h := h
  · exact .inl (l.whole_digits c h)
  · cases hplaces : l.places with
    | nil => simp [hplaces, Numeral.placesText] at h
    | cons d ds =>
      rw [hplaces, Numeral.placesText, List.mem_cons, ← hplaces] at h
      obtain rfl | h := h
      · simp
      · exact .inl (l.places_digits c h)
  · exact mem_powerText h

theorem toLower_of_isDigit {c : Char} (h : c.isDigit) : c.toLower = c := by
  have hnine := (Char.isDigit_iff_toNat.mp h).2
  refine dif_neg fun hupper => ?_
  have hcapital : 'A'.toNat ≤ c.toNat := UInt32.le_iff_toNat_le.mp hupper.1
  exact absurd (hcapital.trans hnine) (by decide)

/-- Nothing in a literal is a separator, a capital letter or the suffix of big integers. -/
theorem unchanged_of_mem {c : Char} (h : c ∈ l.text) : c ≠ '_' ∧ c ≠ 'n' ∧ c.toLower = c := by
  rcases l.mem_text h with hdigit | hmark
  · refine ⟨?_, ?_, toLower_of_isDigit hdigit⟩ <;> (rintro rfl; exact absurd hdigit (by decide))
  · simp only [List.mem_cons, List.not_mem_nil, or_false] at hmark
    rcases hmark with rfl | rfl | rfl | rfl <;> decide

theorem unseparated_text : Numeral.unseparated (String.ofList l.text) = l.text := by
  rw [Numeral.unseparated, String.toList_ofList, List.filter_eq_self]
  exact fun c hc => bne_iff_ne.mpr (l.unchanged_of_mem hc).1

theorem map_toLower_text : l.text.map Char.toLower = l.text :=
  (List.map_congr_left fun _ hc => (l.unchanged_of_mem hc).2.2).trans (List.map_id _)

theorem whole_ne_nil : l.whole ≠ [] := by
  rcases l.whole_head with h | ⟨c, cs, h, -⟩ <;> simp [h]

/-- The text of a literal is taken for a decimal. -/
theorem form_text : Numeral.form (String.ofList l.text) = .decimal := by
  have hlast : l.text.getLast? ≠ some 'n' := fun h => (l.unchanged_of_mem (List.mem_of_getLast? h)).2.1 rfl
  rw [Numeral.form, unseparated_text, map_toLower_text, if_neg hlast]
  rcases l.whole_head with hzero | ⟨c, cs, hwhole, hc⟩
  · rw [text, hzero]
    cases l.places <;> cases l.power? <;> rfl
  · rw [text, hwhole]
    split <;> simp_all

theorem decimal?_text : Numeral.decimal? l.text = some (Binary64.ofDecimal l.decimal.coefficient l.decimal.exponent) := by
  have hpower : powerText l.power? = [] ∨ ∃ ds, powerText l.power? = 'e' :: ds := by
    cases l.power? with
    | none => exact .inl rfl
    | some p => exact .inr ⟨_, rfl⟩
  rw [text, List.append_assoc, Numeral.decimal?_append l.whole_digits l.whole_ne_nil l.places_digits hpower, power?_powerText]
  rfl

theorem read?_text : Numeral.read? (String.ofList l.text) =
    some (.number (Binary64.ofDecimal l.decimal.coefficient l.decimal.exponent)) := by
  simp only [Numeral.read?_eq, form_text, unseparated_text, map_toLower_text, decimal?_text, Option.map_eq_map, Option.map_some]

end DecimalLiteral

end Unminify
