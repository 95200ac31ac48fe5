import Stepwise.Span

/-!
# Lines and columns

A source is a named text together with the table of the offsets at which its lines start. The
line of an offset is found in the table by bisection, and the column is what is left.

Lines and columns are counted from one, columns in bytes. An offset past the end of the text
stands for the end.

## Main definitions

* `Source.ofText` — a text with its line table
* `Source.location` — the line and column of an offset
-/

namespace Stepwise

/-- A named text with the offsets at which its lines start. -/
structure Source where
  name : String
  size : Nat
  lineStarts : Array Nat

namespace Source

/-- The offsets just behind the line ends of a text that begins at the given offset. -/
def startsAfterLineEnds (offset : Nat) : List Char → List Nat
  | [] => []
  | c :: cs =>
    let next := offset + c.utf8Size
    if c = '\n' then next :: startsAfterLineEnds next cs else startsAfterLineEnds next cs

/-- A named text with its line table. The first line starts at zero, every other one behind a
line end. -/
def ofText (name text : String) : Source :=
  ⟨name, text.utf8ByteSize, (0 :: startsAfterLineEnds 0 text.toList).toArray⟩

/-- The number of entries of an increasing table from `low` on and below `high` that are at most
`offset`, added to `low`. -/
def bisect (starts : Array Nat) (offset low high : Nat) : Nat :=
  if low < high then
    let middle := (low + high) / 2
    if starts.getD middle 0 ≤ offset then bisect starts offset (middle + 1) high
    else bisect starts offset low middle
  else low
termination_by high - low
decreasing_by all_goals omega

/-- How many lines start at or before an offset. -/
def lineOf (s : Source) (offset : Nat) : Nat := bisect s.lineStarts offset 0 s.lineStarts.size

/-- The line and column of an offset. -/
def location (s : Source) (offset : Nat) : Nat × Nat :=
  let offset := min offset s.size
  let line := s.lineOf offset
  (line, offset - s.lineStarts.getD (line - 1) 0 + 1)

end Source

end Stepwise
