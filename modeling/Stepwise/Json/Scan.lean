import Stepwise.Decimal.Numeral
import Stepwise.Json.Basic

/-!
# Strings and numbers in JSON

The parts of JSON text that hold no other parts. A scanner is a function from a list of characters
to what stands in front of it and the characters behind it, or to nothing if the text is no JSON.

Text can be correct and yet denote nothing. A surrogate pair stands for one character, and half of
a pair for none, so the contents of a string are themselves optional; and the value of a number
that is too large for a double is `Json.unreadable`. The scanners do not stop there, because the
text may stand where nobody will ask for its value.

## Main definitions

* `Json.string?` — the string in front of a text
* `Json.name?` — the name of a member in front of a text
* `Json.number?` — the number in front of a text
-/

namespace Stepwise

namespace Json

/-- The text behind the blanks in front. JSON has four of them. -/
def dropBlanks (cs : List Char) : List Char :=
  cs.dropWhile fun c => c == ' ' || c == '\n' || c == '\r' || c == '\t'

/-! ### Strings -/

/-- The value of a hexadecimal digit. -/
def hexDigit? (c : Char) : Option Nat :=
  if c.isDigit then some (c.toNat - '0'.toNat)
  else if 'a' ≤ c ∧ c ≤ 'f' then some (c.toNat - 'a'.toNat + 10)
  else if 'A' ≤ c ∧ c ≤ 'F' then some (c.toNat - 'A'.toNat + 10)
  else none

/-- The code unit written by four hexadecimal digits. -/
def hex? : List Char → Option (Nat × List Char)
  | a :: b :: c :: d :: rest => do
    let a ← hexDigit? a
    let b ← hexDigit? b
    let c ← hexDigit? c
    let d ← hexDigit? d
    some (a * 4096 + b * 256 + c * 16 + d, rest)
  | _ => none

/-- Whether a code unit is the first half of a surrogate pair. -/
def isHighSurrogate (n : Nat) : Bool := 0xD800 ≤ n && n < 0xDC00

/-- Whether a code unit is the second half of a surrogate pair. -/
def isLowSurrogate (n : Nat) : Bool := 0xDC00 ≤ n && n < 0xE000

/-- The second half of a surrogate pair, if it is written in front of a text. -/
def lowSurrogate? : List Char → Option (Nat × List Char)
  | '\\' :: 'u' :: rest => (hex? rest).filter fun (unit, _) => isLowSurrogate unit
  | _ => none

/-- The character behind `\u`. A character outside the first plane is written as a surrogate pair,
and half a pair is no character. -/
def unicode? (cs : List Char) : Option (Option Char × List Char) := do
  let (unit, rest) ← hex? cs
  if isHighSurrogate unit then
    match lowSurrogate? rest with
    | some (low, rest) =>
      some (some (Char.ofNat (0x10000 + (unit - 0xD800) * 0x400 + (low - 0xDC00))), rest)
    | none => some (none, rest)
  else if isLowSurrogate unit then some (none, rest)
  else some (some (Char.ofNat unit), rest)

/-- The character in front of the text of a string, which may be written as an escape. -/
def stringChar? : List Char → Option (Option Char × List Char)
  | '\\' :: 'u' :: rest => unicode? rest
  | '\\' :: c :: rest =>
    match c with
    | '"' => some (some '"', rest)
    | '\\' => some (some '\\', rest)
    | '/' => some (some '/', rest)
    | 'b' => some (some '\x08', rest)
    | 'f' => some (some '\x0c', rest)
    | 'n' => some (some '\n', rest)
    | 'r' => some (some '\r', rest)
    | 't' => some (some '\t', rest)
    | _ => none
  | c :: rest => if c = '"' ∨ c = '\\' ∨ c.toNat < 0x20 then none else some (some c, rest)
  | [] => none

theorem length_hex? {cs rest : List Char} {n : Nat} (h : hex? cs = some (n, rest)) :
    rest.length < cs.length := by
  unfold hex? at h
  split at h
  · simp only [bind, Option.bind_eq_some_iff, Option.some.injEq, Prod.mk.injEq] at h
    obtain ⟨_, _, _, _, _, _, _, _, _, rfl⟩ := h
    simp only [List.length_cons]
    omega
  · simp at h

theorem length_lowSurrogate? {cs rest : List Char} {n : Nat}
    (h : lowSurrogate? cs = some (n, rest)) : rest.length < cs.length := by
  unfold lowSurrogate? at h
  split at h
  · have := length_hex? (Option.filter_eq_some_iff.1 h).1
    simp only [List.length_cons]
    omega
  · simp at h

theorem length_unicode? {cs rest : List Char} {c : Option Char}
    (h : unicode? cs = some (c, rest)) : rest.length < cs.length := by
  simp only [unicode?, bind, Option.bind_eq_some_iff] at h
  obtain ⟨⟨unit, behind⟩, hunit, h⟩ := h
  have := length_hex? hunit
  dsimp only at h
  split at h
  · split at h
    · rename_i hlow
      have := length_lowSurrogate? hlow
      simp only [Option.some.injEq, Prod.mk.injEq] at h
      obtain ⟨-, rfl⟩ := h
      omega
    · simp only [Option.some.injEq, Prod.mk.injEq] at h
      obtain ⟨-, rfl⟩ := h
      exact this
  · split at h <;> simp only [Option.some.injEq, Prod.mk.injEq] at h
    all_goals
      obtain ⟨-, rfl⟩ := h
      exact this

/-- A character takes something of the text. -/
theorem length_stringChar? {cs rest : List Char} {c : Option Char}
    (h : stringChar? cs = some (c, rest)) : rest.length < cs.length := by
  unfold stringChar? at h
  split at h
  · have := length_unicode? h
    simp only [List.length_cons]
    omega
  · split at h <;> simp only [Option.some.injEq, Prod.mk.injEq, reduceCtorEq] at h
    all_goals
      obtain ⟨-, rfl⟩ := h
      simp only [List.length_cons]
      omega
  · split at h
    · simp at h
    · simp only [Option.some.injEq, Prod.mk.injEq] at h
      obtain ⟨-, rfl⟩ := h
      simp
  · simp at h

/-- The contents of a string behind its first quote. They are text only if every character is
one. -/
def stringTail? (cs : List Char) : Option (Option (List Char) × List Char) :=
  match cs with
  | '"' :: rest => some (some [], rest)
  | cs =>
    match _h : stringChar? cs with
    | none => none
    | some (c, rest) =>
      (stringTail? rest).map fun (s, last) => (c.bind fun c => s.map fun s => c :: s, last)
termination_by cs.length
decreasing_by exact length_stringChar? _h

/-- The string in front of a text. -/
def string? : List Char → Option (Option String × List Char)
  | '"' :: rest => (stringTail? rest).map fun (s, last) => (s.map String.ofList, last)
  | _ => none

/-- The name of a member in front of a text, and what stands behind its colon. -/
def name? (cs : List Char) : Option (Option String × List Char) := do
  let (name, rest) ← string? (dropBlanks cs)
  match dropBlanks rest with
  | ':' :: rest => some (name, rest)
  | _ => none

/-! ### Numbers -/

/-- The digits of an integer in front of a text: a zero by itself, or digits that do not begin
with one. -/
def wholeDigits? : List Char → Option (List Char × List Char)
  | '0' :: rest => if rest.head?.any Char.isDigit then none else some (['0'], rest)
  | cs =>
    let (digits, rest) := Numeral.scanDigits cs
    if digits = [] then none else some (digits, rest)

/-- The digits behind a point, at least one, or none where there is no point. -/
def fractionDigits? : List Char → Option (List Char × List Char)
  | '.' :: rest =>
    let (digits, rest) := Numeral.scanDigits rest
    if digits = [] then none else some (digits, rest)
  | cs => some ([], cs)

/-- How many digits of a number are read one by one. -/
def maxDigits : Nat := 768

/-- The decimal with the given digits in front of its point and behind it.

Neither a double nor the middle between two of them has more digits than `maxDigits`, so what
follows can only tell on which side of such a number the decimal lies, and one digit that is not
zero stands for all of it. Zeros at the end of the fraction are not counted, so there what follows
is indeed more than nothing. Zeros at the end of the whole part are counted: written with so many
digits, a middle belongs to the double above it. -/
def decimal (negative : Bool) (whole fraction : List Char) (exponent : Int) : Decimal :=
  let fraction := (fraction.reverse.dropWhile (· == '0')).reverse
  let digits := (whole ++ fraction).dropWhile (· == '0')
  let exponent := exponent - fraction.length
  if digits.length ≤ maxDigits then ⟨negative, Decimal.ofDigits digits, exponent⟩
  else
    ⟨negative, Decimal.ofDigits (digits.take maxDigits ++ ['1']),
      exponent + (digits.length - (maxDigits + 1) : Nat)⟩

/-- A double, unless it is too large for one. -/
def ofDecimal (d : Decimal) : Json :=
  let x := d.toFloat
  if x.isFinite then double x else unreadable

/-- An integer that was written without fraction and exponent. What does not fit into 64 bits is a
double, and so is a zero with a minus. -/
def ofWhole (negative : Bool) (magnitude : Nat) : Json :=
  if negative then
    if magnitude ≠ 0 ∧ magnitude ≤ UInt64.size / 2 then int (-magnitude)
    else ofDecimal ⟨true, magnitude, 0⟩
  else if magnitude < UInt64.size then int magnitude
  else ofDecimal ⟨false, magnitude, 0⟩

/-- Whether a number goes on behind its whole part, with a fraction or an exponent. -/
def goesOn : List Char → Bool
  | c :: _ => c == '.' || c == 'e' || c == 'E'
  | [] => false

/-- The number in front of a text that begins behind its sign. -/
def magnitude? (negative : Bool) (cs : List Char) : Option (Json × List Char) := do
  let (whole, rest) ← wholeDigits? cs
  if goesOn rest then
    let (fraction, rest) ← fractionDigits? rest
    let (exponent, rest) ← Numeral.scanExponent rest
    some (ofDecimal (decimal negative whole fraction exponent), rest)
  else some (ofWhole negative (Decimal.ofDigits whole), rest)

/-- The number in front of a text. -/
def number? : List Char → Option (Json × List Char)
  | '-' :: rest => magnitude? true rest
  | cs => magnitude? false cs

end Json

end Stepwise
