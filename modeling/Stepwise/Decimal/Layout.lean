import Stepwise.Decimal.Shortest

/-!
# Decimals as text

A decimal is written either with its point where it belongs, padded with zeros, or with its
point after the first digit and an exponent. A `Layout` says which of the two is used when, and
the few other decisions that a format for numbers takes.
-/

namespace Stepwise

namespace Decimal

/-- How a format writes the finite doubles. -/
structure Layout where
  /-- The exponents of the leading digit for which the point is put where it belongs. -/
  positional : Int → Bool
  /-- Whether a number with the point where it belongs always has a fraction. -/
  fraction : Bool
  /-- Which of two equally near decimals is written. -/
  tie : Tie

/-- The digits of `n`. -/
def digits (n : Nat) : List Char := Nat.toDigits 10 n

/-- `digits × 10 ^ exponent` with the point where it belongs. -/
def positionalText (fraction : Bool) (digits : List Char) (exponent : Int) : List Char :=
  let point := (digits.length : Int) + exponent
  if 0 ≤ exponent then
    digits ++ List.replicate exponent.toNat '0' ++ if fraction then ['.', '0'] else []
  else if 0 < point then
    digits.take point.toNat ++ '.' :: digits.drop point.toNat
  else
    '0' :: '.' :: (List.replicate (-point).toNat '0' ++ digits)

/-- `digits × 10 ^ exponent` with the point after the first digit, no point after a single
digit, and always a sign before the exponent. -/
def scientificText (digits : List Char) (exponent : Int) : List Char :=
  let leading := (digits.length : Int) - 1 + exponent
  let mantissa :=
    match digits with
    | [] => []
    | [d] => [d]
    | d :: ds => d :: '.' :: ds
  mantissa ++ 'e' :: (if leading < 0 then '-' else '+') :: Decimal.digits leading.natAbs

/-- The text of a decimal. -/
def text (layout : Layout) (d : Decimal) : List Char :=
  let ds := digits d.significand
  let body :=
    if layout.positional ((ds.length : Int) - 1 + d.exponent) then
      positionalText layout.fraction ds d.exponent
    else scientificText ds d.exponent
  if d.negative then '-' :: body else body

/-- The text of the finite double `x`: its shortest decimal in the given layout. -/
def floatText (layout : Layout) (x : Float) : List Char := text layout (ofFloat layout.tie x)

end Decimal

/-- Numbers on the console are written without exponent, without needless fraction, and with
the larger of two equally near decimals. -/
def consoleLayout : Decimal.Layout := ⟨fun _ => true, false, .up⟩

/-- The text of a number on the console: zero has no sign there. -/
def numberText (x : Float) : String :=
  if x.isNaN then "NaN"
  else if x.isInf then (if Double.isNegative x then "-Infinity" else "Infinity")
  else if Double.magnitudeBits x = 0 then "0"
  else String.ofList (Decimal.floatText consoleLayout x)

end Stepwise
