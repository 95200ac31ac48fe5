import Stepwise.Decimal.Nearest

/-!
# The shortest decimal of a double

The decimal with the fewest digits that reads back to a given double; of several, the one
nearest to its value.

A decimal with `n` digits lies on the grid of the multiples of a power of ten. If any point of
the grid reads back to the double, so does one of the two neighbours of its value there, because
the numbers that round to a double form an interval around it. So the grids are tried from the
coarsest on, and on each only two points. Seventeen digits always suffice. Whether a point reads
back is decided by rounding it, not by comparing it with the ends of the interval: what is chosen
reads back by construction, whatever the search does.

## Main definitions

* `Double.units` — the exact value of a bit pattern, in units of `2 ^ -1074`
* `Decimal.ofFloat` — the shortest decimal of a finite double
-/

namespace Stepwise

namespace Double

/-- The value of the pattern of a finite double, in units of the smallest positive one. -/
def units (bits : Nat) : Nat :=
  let field := bits / hiddenBit
  let fraction := bits % hiddenBit
  if field = 0 then fraction else (hiddenBit + fraction) <<< (field - 1)

end Double

namespace Decimal

/-- Which of two equally near decimals is taken. -/
inductive Tie where
  | even
  | up
deriving DecidableEq

/-- The number of decimal digits of `n`. -/
def digitCount (n : Nat) : Nat := (Nat.toDigits 10 n).length

/-- The exponent of the leading digit of `num / den`, a positive number. Below one it is minus the
number of digits of the largest natural number below `den / num`. -/
def leadingExponent (num den : Nat) : Int :=
  if den ≤ num then (digitCount (num / den) : Int) - 1
  else -(digitCount ((den - 1) / num) : Int)

/-- Whether `significand × 10 ^ exponent` reads back to the double with the pattern `bits`. -/
def readsBack (bits significand : Nat) (exponent : Int) : Bool :=
  nearestBits significand exponent == bits

/-- The multiple of `10 ^ grid` nearest to the double with the pattern `bits` among the two
neighbours of its value that read back to it. -/
def onGrid? (tie : Tie) (bits : Nat) (grid : Int) : Option Nat :=
  let num := Double.units bits * powerOfTen (-grid).toNat
  let den := Double.unitsOfOne * powerOfTen grid.toNat
  let below := num / den
  let twice := 2 * (num % den)
  match readsBack bits below grid, readsBack bits (below + 1) grid with
  | false, false => none
  | true, false => some below
  | false, true => some (below + 1)
  | true, true =>
    if twice < den then some below
    else if den < twice then some (below + 1)
    else match tie with
      | .up => some (below + 1)
      | .even => some (if below % 2 = 0 then below else below + 1)

/-- What `onGrid?` chooses reads back. -/
theorem readsBack_of_onGrid? {tie : Tie} {bits : Nat} {grid : Int} {significand : Nat}
    (h : onGrid? tie bits grid = some significand) : readsBack bits significand grid = true := by
  unfold onGrid? at h
  grind

/-- `significand × 10 ^ exponent` without zeros at the end of the significand. -/
def dropZeros (significand : Nat) (exponent : Int) : Nat × Int :=
  if significand ≠ 0 ∧ significand % 10 = 0 then dropZeros (significand / 10) (exponent + 1)
  else (significand, exponent)
termination_by significand
decreasing_by omega

/-- The significand and exponent of the shortest decimal that reads back to the double with the
positive pattern `bits`. Were none found, the exact value would do, as `2 ^ -1074` is
`5 ^ 1074 × 10 ^ -1074`. -/
def shortestOfBits (tie : Tie) (bits : Nat) : Nat × Int :=
  let leading := leadingExponent (Double.units bits) Double.unitsOfOne
  let found := (List.range 17).findSome? fun (n : Nat) =>
    (onGrid? tie bits (leading - n)).map fun significand => (significand, leading - n)
  let (significand, exponent) := found.getD (Double.units bits * Nat.pow 5 1074, -1074)
  dropZeros significand exponent

/-- The shortest decimal that reads back to the finite double `x`. -/
def ofFloat (tie : Tie) (x : Float) : Decimal :=
  let bits := Double.magnitudeBits x
  if bits = 0 then ⟨Double.isNegative x, 0, 0⟩
  else
    let (significand, exponent) := shortestOfBits tie bits
    ⟨Double.isNegative x, significand, exponent⟩

end Decimal

end Stepwise
