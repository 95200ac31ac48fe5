/-!
# The double nearest to a decimal

A decimal number `± significand × 10 ^ exponent` is turned into the IEEE double nearest to it,
a half going to the neighbour whose last bit is zero.

The rounding is done on natural numbers, and the result is a bit pattern. Writing a positive
value in units of `2 ^ -1074`, the smallest positive double, makes the subnormal numbers and
the first normal ones the same case: up to `2 ^ 53` units the pattern is the number of units.
Above, each doubling of the unit raises the exponent field by one, which adds `2 ^ 52` to the
pattern. So no case distinction on the kind of number is left, and a significand that rounds
up to the next power of two carries into the exponent field by itself.

## Main definitions

* `Double.nearestBits` — the pattern of the double nearest to a quotient of natural numbers
* `Decimal.toFloat` — the double nearest to a decimal
-/

namespace Stepwise

/-- The number `± significand × 10 ^ exponent`. The sign stands apart, so that there are two
zeros. -/
structure Decimal where
  negative : Bool
  significand : Nat
  exponent : Int
deriving DecidableEq

/-- `num / den` rounded to a natural number, a half going to the even neighbour. -/
def roundHalfEven (num den : Nat) : Nat :=
  let quotient := num / den
  let twice := 2 * (num % den)
  if twice < den ∨ (twice = den ∧ quotient % 2 = 0) then quotient else quotient + 1

/-- A quotient without remainder is not changed by rounding. -/
theorem roundHalfEven_mul_right {n den : Nat} (h : 0 < den) : roundHalfEven (n * den) den = n := by
  simp [roundHalfEven, h]

namespace Double

/-- The pattern of positive infinity. All smaller patterns are those of finite numbers. -/
def infinityBits : Nat := 0x7FF0000000000000

/-- The bit of the sign. -/
def signBit : Nat := 0x8000000000000000

/-- The lowest bit of the exponent field. It is also the leading bit of the significand, which is
not stored: subnormal numbers stay below it. -/
def hiddenBit : Nat := 0x10000000000000

/-- One, in units of the smallest positive double. -/
def unitsOfOne : Nat := 1 <<< 1074

/-- The pattern of the double nearest to `num / den`, where the numbers from half way above the
largest finite double on go to infinity. -/
def nearestBits (num den : Nat) : Nat :=
  let scaled := num * unitsOfOne
  let shift := (scaled / den).log2 - 52
  min (shift * hiddenBit + roundHalfEven scaled (den <<< shift)) infinityBits

theorem nearestBits_le (num den : Nat) : nearestBits num den ≤ infinityBits := Nat.min_le_right ..

/-- The double with a sign and the pattern of its absolute value. -/
def ofSignBits (negative : Bool) (bits : Nat) : Float :=
  Float.ofBits (UInt64.ofNat (if negative then signBit + bits else bits))

/-- The pattern of the absolute value of `x`. -/
def magnitudeBits (x : Float) : Nat := x.toBits.toNat % signBit

/-- Whether the sign of `x` is set, which also tells the two zeros apart. -/
def isNegative (x : Float) : Bool := signBit ≤ x.toBits.toNat

/-- Positive infinity. -/
def infinity : Float := ofSignBits false infinityBits

/-- Negative infinity. -/
def negInfinity : Float := ofSignBits true infinityBits

/-- The one value that is not a number. -/
def nan : Float := ofSignBits false 0x7FF8000000000000

end Double

namespace Decimal

/-- A power of ten. -/
def powerOfTen (n : Nat) : Nat := Nat.pow 10 n

/-- The pattern of the double nearest to `significand × 10 ^ exponent`.

Exponents far outside the range of the doubles are answered at once: from `10 ^ 401` on all is
infinite, and a significand below `2 ^ (log2 + 1)` cannot lift `10 ^ -(402 + log2)` to
`10 ^ -400`, where all is zero. The powers of ten that remain are small. -/
def nearestBits (significand : Nat) (exponent : Int) : Nat :=
  if significand = 0 then 0
  else if 400 < exponent then Double.infinityBits
  else if exponent < -(401 + significand.log2 : Nat) then 0
  else if 0 ≤ exponent then Double.nearestBits (significand * powerOfTen exponent.toNat) 1
  else Double.nearestBits significand (powerOfTen (-exponent).toNat)

theorem nearestBits_le (significand : Nat) (exponent : Int) :
    nearestBits significand exponent ≤ Double.infinityBits := by
  unfold nearestBits
  split
  · exact Nat.zero_le _
  · split
    · exact Nat.le_refl _
    · split
      · exact Nat.zero_le _
      · split <;> exact Double.nearestBits_le ..

/-- The double nearest to `d`. -/
def toFloat (d : Decimal) : Float :=
  Double.ofSignBits d.negative (nearestBits d.significand d.exponent)

/-- The natural number written by a list of decimal digits, the empty list being zero. -/
def ofDigits (digits : List Char) : Nat :=
  digits.foldl (fun n d => 10 * n + (d.toNat - '0'.toNat)) 0

@[simp] theorem ofDigits_nil : ofDigits [] = 0 := rfl

end Decimal

end Stepwise
