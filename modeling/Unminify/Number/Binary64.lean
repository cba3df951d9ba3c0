/-!
# Binary64 numbers

A number of the language is a binary64 value, held as its 64 bits so that every value, both zeros
and the non-numbers included, has exactly one carrier and statements about it are statements about
natural numbers. A finite value is `significand · 2 ^ exponent` up to sign.

Every operation is the exact one followed by `ofRatio`, which rounds a nonnegative ratio to the
nearest value, a half going to the even neighbour.
-/

namespace Unminify

/-- A binary64 value as its bit pattern. -/
structure Binary64 where
  bits : UInt64
deriving DecidableEq, Repr, Inhabited

namespace Binary64

/-- The exponent field, `0 … 2047`. -/
def field (x : Binary64) : Nat := x.bits.toNat / Nat.pow 2 52 % 2048

/-- The fraction field, below `2 ^ 52`. -/
def fraction (x : Binary64) : Nat := x.bits.toNat % Nat.pow 2 52

/-- The sign bit. -/
def isNegative (x : Binary64) : Bool := Nat.pow 2 63 ≤ x.bits.toNat

def isNaN (x : Binary64) : Bool := x.field == 2047 && x.fraction != 0

def isInfinite (x : Binary64) : Bool := x.field == 2047 && x.fraction == 0

def isZero (x : Binary64) : Bool := x.field == 0 && x.fraction == 0

/-- The integer significand of a finite value; normal values carry a hidden leading one. -/
def significand (x : Binary64) : Nat :=
  if x.field = 0 then x.fraction else x.fraction + Nat.pow 2 52

/-- The power of two that scales the significand. -/
def exponent (x : Binary64) : Int := (max x.field 1 : Nat) - 1075

/-- The value without its sign bit. -/
def magnitude (x : Binary64) : Binary64 := ⟨UInt64.ofNat (x.bits.toNat % Nat.pow 2 63)⟩

/-- The value with the sign bit set when `negative` holds. -/
def signed (negative : Bool) (x : Binary64) : Binary64 :=
  if negative then ⟨UInt64.ofNat (x.bits.toNat % Nat.pow 2 63 + Nat.pow 2 63)⟩ else x

/-- Numeric equality: a non-number equals nothing, and the two zeros are equal. -/
def equal (x y : Binary64) : Bool :=
  !x.isNaN && !y.isNaN && (x.bits == y.bits || x.isZero && y.isZero)

def zero : Binary64 := ⟨0⟩

def infinity : Binary64 := ⟨0x7ff0000000000000⟩

/-- The magnitude of a finite value as numerator and denominator. -/
def ratio (x : Binary64) : Nat × Nat :=
  (x.significand * Nat.pow 2 x.exponent.toNat, Nat.pow 2 (-x.exponent).toNat)

/-- `num / den` to the nearest integer, a half going to the even neighbour. -/
def roundDiv (num den : Nat) : Nat :=
  let q := num / den
  let r := num % den
  if 2 * r < den then q else if den < 2 * r then q + 1 else q + q % 2

/-- The value nearest to `num / den`, a half going to the even neighbour. From the first power of
two past the largest value on, the result is infinite.

The quotient is scaled so that 53 bits stand before the point, or fewer for values below the normal
range; a carry out of the rounding runs into the exponent field, which is the next value's code. -/
def ofRatio (num den : Nat) : Binary64 :=
  if num = 0 then zero
  else
    let guess : Int := (num.log2 : Int) - den.log2 - 52
    let scaled (e : Int) : Nat × Nat := (num * Nat.pow 2 (-e).toNat, den * Nat.pow 2 e.toNat)
    let below := let (n, d) := scaled guess; n < d * Nat.pow 2 52
    let e := max (if below then guess - 1 else guess) (-1074)
    let (n, d) := scaled e
    let code := (e + 1074).toNat * Nat.pow 2 52 + roundDiv n d
    if 2047 * Nat.pow 2 52 ≤ code then infinity else ⟨UInt64.ofNat code⟩

/-- The value nearest to `coefficient · 10 ^ exponent`. Exponents far outside the range of finite
values are settled by the number of digits, so no huge power is formed. -/
def ofDecimal (coefficient : Nat) (exponent : Int) : Binary64 :=
  let digits : Int := (Nat.toDigits 10 coefficient).length
  if coefficient = 0 then zero
  else if digits + exponent < -400 then zero
  else if 400 < digits + exponent then infinity
  else ofRatio (coefficient * Nat.pow 10 exponent.toNat) (Nat.pow 10 (-exponent).toNat)

/-- The value nearest to a natural number. -/
def ofNat (n : Nat) : Binary64 := ofRatio n 1

/-- The rounded product of a nonnegative value and a natural number. -/
def mulNat (x : Binary64) (k : Nat) : Binary64 :=
  if x.isInfinite then x else let (n, d) := x.ratio; ofRatio (n * k) d

/-- The rounded sum of a nonnegative value and a natural number. -/
def addNat (x : Binary64) (k : Nat) : Binary64 :=
  if x.isInfinite then x else let (n, d) := x.ratio; ofRatio (n + k * d) d

/-- The integer a finite value equals, if it is one with magnitude below `2 ^ 53` and not the
negative zero. -/
def toSmallInt? (x : Binary64) : Option Int :=
  let (n, d) := x.ratio
  let k := n / d
  if x.field = 2047 || n % d != 0 || Nat.pow 2 53 ≤ k || (x.isZero && x.isNegative) then none
  else some (if x.isNegative then -(k : Int) else k)

end Binary64

end Unminify
