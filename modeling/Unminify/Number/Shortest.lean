import Unminify.Number.Binary64

/-!
# Shortest decimals

`shortest` gives the decimal with the fewest digits that reads back as a given value; among those
with equally many digits, the one nearest to the value. A decimal reads back as a value when it
lies in the interval of reals that round to it, whose ends belong to it exactly when the
significand is even.

A value's two neighbours on each decimal grid are tested, coarse grids first. Seventeen digits
always suffice.
-/

namespace Unminify

/-- `coefficient · 10 ^ exponent`. -/
structure Decimal where
  coefficient : Nat
  exponent : Int
deriving DecidableEq, Repr, Inhabited

namespace Decimal

/-- The decimal digits of a natural number. -/
def digits (n : Nat) : List Char := Nat.toDigits 10 n

/-- The decimal without trailing zeros in its coefficient. -/
def trimmed (d : Decimal) : Decimal :=
  let zeros := (digits d.coefficient).reverse.takeWhile (· == '0') |>.length
  if d.coefficient = 0 then ⟨0, 0⟩ else ⟨d.coefficient / Nat.pow 10 zeros, d.exponent + zeros⟩

/-- The number of digits before the point when the decimal is written out. -/
def pointAt (d : Decimal) : Int := (digits d.coefficient).length + d.exponent

/-- Written out digit by digit, without an exponent. -/
def positional (d : Decimal) : String :=
  let ds := digits d.coefficient
  let p := d.pointAt
  if 0 ≤ d.exponent then String.ofList (ds ++ List.replicate d.exponent.toNat '0')
  else if 0 < p then String.ofList (ds.take p.toNat ++ '.' :: ds.drop p.toNat)
  else String.ofList ('0' :: '.' :: List.replicate (-p).toNat '0' ++ ds)

/-- One digit before the point, the others after it: the mantissa of exponent form. -/
def mantissa (d : Decimal) : String :=
  match digits d.coefficient with
  | [] => "0"
  | [c] => String.ofList [c]
  | c :: cs => String.ofList (c :: '.' :: cs)

/-- The power of ten that goes with `mantissa`. -/
def power (d : Decimal) : Int := d.pointAt - 1

end Decimal

namespace Binary64

/-- The ends of the interval that rounds to a positive finite value, as numerators over the common
denominator given last: lower end, value, upper end. The value below a power of two is only half
as far away. -/
def interval (x : Binary64) : Nat × Nat × Nat × Nat :=
  let (n, d) := x.ratio
  let step := Nat.pow 2 x.exponent.toNat
  let half := if x.fraction = 0 ∧ 1 < x.field then step else 2 * step
  (4 * n - half, 4 * n, 4 * n + 2 * step, 4 * d)

/-- The number of digits before the point of a positive ratio: the least `p` with
`num / den < 10 ^ p`. -/
def digitsBefore (num den : Nat) : Int :=
  let guess : Int := ((num.log2 : Int) - den.log2) * 30103 / 100000
  let fits (p : Int) : Bool := num * Nat.pow 10 (-p).toNat < den * Nat.pow 10 p.toNat
  ((List.range 6).map fun i : Nat => guess - 2 + (i : Int)).find? fits |>.getD (guess + 4)

/-- The decimal with `k` digits nearest to a positive value, if it reads back as that value. Of two
equally near ones the larger is taken. -/
def withDigits? (x : Binary64) (k : Nat) : Option Decimal :=
  let (lo, mid, hi, den) := x.interval
  let q := digitsBefore mid den - k
  -- one unit of the grid is `10 ^ q`
  let scale (n : Nat) : Nat := n * Nat.pow 10 (-q).toNat
  let unit := den * Nat.pow 10 q.toNat
  let down := scale mid / unit
  let rest := scale mid % unit
  let reads (c : Nat) : Bool :=
    if x.significand % 2 = 0 then scale lo ≤ c * unit && c * unit ≤ scale hi
    else scale lo < c * unit && c * unit < scale hi
  let downOk := reads down && down != 0
  let upOk := reads (down + 1)
  if upOk && (!downOk || unit ≤ 2 * rest) then some ⟨down + 1, q⟩
  else if downOk then some ⟨down, q⟩
  else none

/-- The shortest decimal of a positive finite value. -/
def shortest (x : Binary64) : Decimal :=
  let found := (List.range 17).findSome? fun i => x.withDigits? (i + 1)
  (found.getD ⟨x.ratio.1, 0⟩).trimmed

end Binary64

end Unminify
