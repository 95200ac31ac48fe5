/-!
# Counting open parentheses

Checking a statement and reading a loop head both count how many parentheses are open. The count
starts at zero, goes up and down by one, and is only ever compared with zero.

That is all a counter has to offer, so it is all that `Depth` asks for. The library counts in the
integers. The same functions also count in machine words, which wrap around, and then the two
counts can be compared.
-/

namespace Stepwise

/-- A count that starts at zero, goes up and down by one and can be compared with zero. -/
class Depth (κ : Type) where
  zero : κ
  up : κ → κ
  down : κ → κ
  sign : κ → Ordering

namespace Depth

/-- The sign of an integer. -/
def signOfInt (d : Int) : Ordering := if d < 0 then .lt else if d = 0 then .eq else .gt

instance : Depth Int := ⟨0, (· + 1), (· - 1), signOfInt⟩

/-- Unsigned words are never below zero: one below zero is the largest of them. -/
instance : Depth UInt32 := ⟨0, (· + 1), (· - 1), fun d => if d = 0 then .eq else .gt⟩

instance : Depth Int32 := ⟨0, (· + 1), (· - 1), fun d => signOfInt d.toInt⟩

instance : Depth UInt64 := ⟨0, (· + 1), (· - 1), fun d => if d = 0 then .eq else .gt⟩

variable {κ : Type} [Depth κ]

/-- Whether a count is at zero. -/
def isZero (d : κ) : Bool := sign d == .eq

/-- One parenthesis is open. -/
def one : κ := up zero

@[simp] theorem zero_int : (zero : Int) = 0 := rfl

@[simp] theorem one_int : (one : Int) = 1 := rfl

@[simp] theorem up_int (d : Int) : up d = d + 1 := rfl

@[simp] theorem down_int (d : Int) : down d = d - 1 := rfl

@[simp] theorem sign_int (d : Int) : sign d = signOfInt d := rfl

@[simp] theorem signOfInt_eq_lt (d : Int) : signOfInt d = .lt ↔ d < 0 := by
  grind [signOfInt]

@[simp] theorem signOfInt_eq_eq (d : Int) : signOfInt d = .eq ↔ d = 0 := by
  grind [signOfInt]

@[simp] theorem signOfInt_eq_gt (d : Int) : signOfInt d = .gt ↔ 0 < d := by
  grind [signOfInt]

@[simp] theorem isZero_int (d : Int) : isZero d = true ↔ d = 0 := by simp [isZero]

end Depth

end Stepwise
