import Stepwise.Decimal.Nearest

/-!
# Numerals

The texts that denote a double: an optional sign, and then either a word for infinity or for
what is not a number, in any letter case, or decimal digits with an optional point, which has a
digit on at least one side, and an optional exponent. Nothing else, and no blanks.

The parts of a numeral are scanned from the front of a list of characters, and each scanner
answers with what it has read and the characters that are left.
-/

namespace Stepwise

namespace Numeral

/-- The decimal digits in front, and what is left. -/
def scanDigits (cs : List Char) : List Char × List Char :=
  (cs.takeWhile Char.isDigit, cs.dropWhile Char.isDigit)

/-- The sign in front, if there is one: whether it is a minus, and what is left. -/
def scanSign : List Char → Bool × List Char
  | '-' :: cs => (true, cs)
  | '+' :: cs => (false, cs)
  | cs => (false, cs)

/-- The exponent in front and what is left. A text without exponent has the exponent zero, and a
mark without digits after it is no exponent. -/
def scanExponent : List Char → Option (Int × List Char)
  | [] => some (0, [])
  | c :: cs =>
    if c = 'e' ∨ c = 'E' then
      let (negative, unsigned) := scanSign cs
      let (digits, rest) := scanDigits unsigned
      if digits = [] then none
      else
        let magnitude : Int := Decimal.ofDigits digits
        some (if negative then -magnitude else magnitude, rest)
    else some (0, c :: cs)

/-- The decimal written by the whole of an unsigned text. -/
def unsigned? (negative : Bool) (cs : List Char) : Option Decimal :=
  let (whole, afterWhole) := scanDigits cs
  let (fraction, afterFraction) :=
    match afterWhole with
    | '.' :: rest => scanDigits rest
    | rest => ([], rest)
  if whole ++ fraction = [] then none
  else
    match scanExponent afterFraction with
    | some (exponent, []) =>
      some ⟨negative, Decimal.ofDigits (whole ++ fraction), exponent - fraction.length⟩
    | _ => none

/-- The double denoted by a text, or nothing if the text is no numeral. -/
def read? (cs : List Char) : Option Float :=
  let (negative, body) := scanSign cs
  let word := body.map Char.toLower
  if word = ['i', 'n', 'f'] ∨ word = ['i', 'n', 'f', 'i', 'n', 'i', 't', 'y'] then
    some (if negative then Double.negInfinity else Double.infinity)
  else if word = ['n', 'a', 'n'] then some Double.nan
  else (unsigned? negative body).map Decimal.toFloat

end Numeral

end Stepwise
