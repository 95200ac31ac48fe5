import Stepwise.Decimal.Layout

/-!
# JSON

JSON text as data, with the numbers that programs can hold: integers, and doubles. What is written
with a fraction or an exponent is a double, and an integer is one only if it does not fit into 64
bits. The members of an object stand in the order of the text, repeated names included; what a
repeated name means is for the reader of the object to say.

Some text is correct JSON and yet no data: a number that is too large for a double, a string with
half of a surrogate pair in it, an array inside too many others. It does no harm in a field that is
passed over, so it is no error by itself. It has a value of its own, `Json.unreadable`, which none
of the functions that take data apart accepts.

Text is written without blanks, and escapes only what has to be: the quote, the backslash, and the
characters below the blank.

## Main definitions

* `Json.charsBefore`, `Json.text` — the text of a value
* `Json.nesting` — how deep arrays and objects stand inside each other
* `Json.isReadable` — whether a value is data in all its parts
-/

namespace Stepwise

/-- A value of JSON. -/
inductive Json where
  | null
  | bool (b : Bool)
  | int (n : Int)
  | double (x : Float)
  | string (s : String)
  | array (items : List Json)
  | object (members : List (String × Json))
  /-- What is written correctly and is no data. -/
  | unreadable

namespace Json

/-- Numbers in data have a point where it belongs if their leading digit stands between the fifth
place behind the point and the sixteenth before it. They always have a fraction there, and of two
equally near decimals the one with an even last digit is written. -/
def numberLayout : Decimal.Layout := ⟨fun e => -5 ≤ e && e < 16, true, .even⟩

/-- The text of a double. Infinities and what is not a number have none, and `null` stands for
them. -/
def doubleChars (x : Float) : List Char :=
  if x.isFinite then Decimal.floatText numberLayout x else ['n', 'u', 'l', 'l']

/-- The text of an integer. -/
def intChars (n : Int) : List Char :=
  if n < 0 then '-' :: Decimal.digits n.natAbs else Decimal.digits n.natAbs

/-- A character inside a string. -/
def escape (c : Char) : List Char :=
  if c = '"' then ['\\', '"']
  else if c = '\\' then ['\\', '\\']
  else if c = '\x08' then ['\\', 'b']
  else if c = '\x0c' then ['\\', 'f']
  else if c = '\n' then ['\\', 'n']
  else if c = '\r' then ['\\', 'r']
  else if c = '\t' then ['\\', 't']
  else if c.toNat < 0x20 then
    ['\\', 'u', '0', '0', (c.toNat / 16).digitChar, (c.toNat % 16).digitChar]
  else [c]

/-- A string with its quotes. -/
def stringChars (s : String) : List Char := '"' :: (s.toList.flatMap escape ++ ['"'])

mutual

/-- The text of a value in front of other text. As for doubles without text, `null` stands for what
is no data. -/
def charsBefore : Json → List Char → List Char
  | null, rest => 'n' :: 'u' :: 'l' :: 'l' :: rest
  | bool true, rest => 't' :: 'r' :: 'u' :: 'e' :: rest
  | bool false, rest => 'f' :: 'a' :: 'l' :: 's' :: 'e' :: rest
  | int n, rest => intChars n ++ rest
  | double x, rest => doubleChars x ++ rest
  | string s, rest => stringChars s ++ rest
  | array items, rest => '[' :: itemsBefore items (']' :: rest)
  | object members, rest => '{' :: membersBefore members ('}' :: rest)
  | unreadable, rest => 'n' :: 'u' :: 'l' :: 'l' :: rest

/-- The text of the items of an array in front of other text. -/
def itemsBefore : List Json → List Char → List Char
  | [], rest => rest
  | j :: items, rest => charsBefore j (furtherItemsBefore items rest)

/-- The text of the items behind the first, each with its comma, in front of other text. -/
def furtherItemsBefore : List Json → List Char → List Char
  | [], rest => rest
  | j :: items, rest => ',' :: charsBefore j (furtherItemsBefore items rest)

/-- The text of the members of an object in front of other text. -/
def membersBefore : List (String × Json) → List Char → List Char
  | [], rest => rest
  | (name, j) :: members, rest =>
    stringChars name ++ ':' :: charsBefore j (furtherMembersBefore members rest)

/-- The text of the members behind the first, each with its comma, in front of other text. -/
def furtherMembersBefore : List (String × Json) → List Char → List Char
  | [], rest => rest
  | (name, j) :: members, rest =>
    ',' :: (stringChars name ++ ':' :: charsBefore j (furtherMembersBefore members rest))

end

/-- The text of a value. -/
def text (j : Json) : String := String.ofList (j.charsBefore [])

mutual

/-- How deep arrays and objects stand inside each other. -/
def nesting : Json → Nat
  | array items => nestingOfItems items + 1
  | object members => nestingOfMembers members + 1
  | _ => 0

/-- The largest nesting of an item. -/
def nestingOfItems : List Json → Nat
  | [] => 0
  | j :: rest => max j.nesting (nestingOfItems rest)

/-- The largest nesting of a member. -/
def nestingOfMembers : List (String × Json) → Nat
  | [] => 0
  | (_, j) :: rest => max j.nesting (nestingOfMembers rest)

end

mutual

/-- Whether a value is data in all its parts. -/
def isReadable : Json → Bool
  | array items => allReadable items
  | object members => allMembersReadable members
  | unreadable => false
  | _ => true

/-- Whether all items are data. -/
def allReadable : List Json → Bool
  | [] => true
  | j :: rest => j.isReadable && allReadable rest

/-- Whether what stands under the names is data everywhere. -/
def allMembersReadable : List (String × Json) → Bool
  | [] => true
  | (_, j) :: rest => j.isReadable && allMembersReadable rest

end

end Json

end Stepwise
