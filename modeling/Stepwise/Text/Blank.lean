/-!
# Blank characters

The characters of the Unicode property `White_Space`, and text without the blanks around it.

The table is closed: it has twenty-five characters, and it is larger than the set of ASCII
blanks and smaller than what a reader may take for blank. A zero-width space and a byte order
mark are not in it.
-/

namespace Stepwise

namespace Text

/-- The code points with the property `White_Space`. -/
def blanks : List Nat :=
  [0x09, 0x0A, 0x0B, 0x0C, 0x0D, 0x20, 0x85, 0xA0, 0x1680,
    0x2000, 0x2001, 0x2002, 0x2003, 0x2004, 0x2005, 0x2006, 0x2007, 0x2008, 0x2009, 0x200A,
    0x2028, 0x2029, 0x202F, 0x205F, 0x3000]

/-- Whether `c` is blank. -/
def isBlank (c : Char) : Bool := blanks.contains c.toNat

/-- `cs` without the blanks at its two ends. -/
def trim (cs : List Char) : List Char :=
  ((cs.dropWhile isBlank).reverse.dropWhile isBlank).reverse

@[simp] theorem trim_nil : trim [] = [] := rfl

/-- Every blank of ASCII is in the table. -/
theorem isBlank_of_isWhitespace {c : Char} (h : c.isWhitespace = true) : isBlank c = true := by
  simp only [Char.isWhitespace, Bool.or_eq_true, decide_eq_true_eq] at h
  rcases h with ((rfl | rfl) | rfl) | rfl <;> decide

example : blanks.length = 25 := rfl

example : isBlank '\u200b' = false ∧ isBlank '\ufeff' = false ∧ isBlank '\x1c' = false := by decide

end Text

end Stepwise
