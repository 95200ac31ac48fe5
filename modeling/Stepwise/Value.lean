import Stepwise.Decimal.Numeral
import Stepwise.Expr.Basic
import Stepwise.Text.Blank

/-!
# Values

A value is a number or a text. Operators convert as they need to, and none of them fails: text
that denotes no number counts as the double that is not a number.

Only `+` joins texts. Comparison does not convert two texts, and equality never converts: a number
is not equal to any text.

## Main definitions

* `Value.toNumber` — the numeric view of a value
* `Value.apply` — the binary operators
-/

namespace Stepwise

/-- A number or a text. -/
inductive Value where
  | number (x : Float)
  | text (s : String)
deriving DecidableEq

namespace Value

/-- The value of a name that was never assigned. -/
def zero : Value := number 0

/-- Truth as a value. -/
def ofBool (b : Bool) : Value := number (if b then 1 else 0)

/-- Whether a value counts as true: numbers other than zero and texts other than the empty one,
but not what is no number. -/
def isTrue : Value → Bool
  | number x => x != 0 && !x.isNaN
  | text s => !s.isEmpty

/-- The value as a number. Blanks around a text do not count, a text of blanks only is zero, and a
text that is no numeral is not a number. -/
def toNumber : Value → Float
  | number x => x
  | text s =>
    let cs := Text.trim s.toList
    if cs = [] then 0 else (Numeral.read? cs).getD Double.nan

/-- A value as it is written out. -/
def display : Value → String
  | number x => numberText x
  | text s => s

/-- Equality as the language has it. Zero has one value here whatever its sign, and what is not a
number is not equal to itself. -/
def equals : Value → Value → Bool
  | number x, number y => x == y
  | text s, text t => s == t
  | _, _ => false

/-- The order of two doubles, none if one of them is not a number. -/
def compareNumbers (x y : Float) : Option Ordering :=
  if x < y then some .lt else if x == y then some .eq else if y < x then some .gt else none

/-- The order of two values. Texts are ordered by their characters, all else as numbers. -/
def compare : Value → Value → Option Ordering
  | text s, text t => some (if s < t then .lt else if s = t then .eq else .gt)
  | v, w => compareNumbers v.toNumber w.toNumber

/-- The value of an operator. -/
def apply (op : Operator) (v w : Value) : Value :=
  match op with
  | .add =>
    match v, w with
    | number x, number y => number (x + y)
    | _, _ => text (v.display ++ w.display)
  | .sub => number (v.toNumber - w.toNumber)
  | .mul => number (v.toNumber * w.toNumber)
  | .div => number (v.toNumber / w.toNumber)
  | .eq => ofBool (v.equals w)
  | .notEq => ofBool (!v.equals w)
  | .less => ofBool (v.compare w == some .lt)
  | .greater => ofBool (v.compare w == some .gt)
  | .lessEq => ofBool (v.compare w == some .lt || v.compare w == some .eq)
  | .greaterEq => ofBool (v.compare w == some .gt || v.compare w == some .eq)
  | .and => ofBool (v.isTrue && w.isTrue)
  | .or => ofBool (v.isTrue || w.isTrue)

@[simp] theorem isTrue_ofBool (b : Bool) : (ofBool b).isTrue = b := by
  cases b <;> decide

end Value

end Stepwise
