import Stepwise.Json.Scan

/-!
# Reading JSON

Arrays and objects may stand inside each other to a fixed depth, and the reader recurses on the
depth that is left. What stands deeper is no data, but it may still be correct text, so it is
passed over by a machine that only remembers which brackets are open.

The items of an array and the members of an object are the same thing, a sequence with commas, so
they share one loop.

## Main definitions

* `Json.skip?` — what stands behind a value of any depth
* `Json.value?` — the value in front of a text
* `Json.parse?` — the value of a whole text
-/

namespace Stepwise

namespace Json

/-- A string as a value. -/
def ofString : Option String → Json
  | some s => string s
  | none => unreadable

/-- An object. It is data only if all its names are. -/
def ofMembers (members : List (Option String × Json)) : Json :=
  match members.mapM fun (name, j) => name.map fun name => (name, j) with
  | some members => object members
  | none => unreadable

theorem ofMembers_of_mapM {members : List (Option String × Json)} {named : List (String × Json)}
    (h : (members.mapM fun (name, j) => name.map fun name => (name, j)) = some named) :
    ofMembers members = object named := by
  rw [ofMembers, h]

/-- The value in front of a text, if it is neither an array nor an object. -/
def scalar? : List Char → Option (Json × List Char)
  | 'n' :: 'u' :: 'l' :: 'l' :: rest => some (null, rest)
  | 't' :: 'r' :: 'u' :: 'e' :: rest => some (bool true, rest)
  | 'f' :: 'a' :: 'l' :: 's' :: 'e' :: rest => some (bool false, rest)
  | '"' :: rest => (string? ('"' :: rest)).map fun (s, rest) => (ofString s, rest)
  | cs => number? cs

/-! ### Passing over values -/

/-- What a value that holds other values begins with. -/
inductive Bracket where
  | array
  | object

namespace Bracket

/-- The bracket in front of a text. -/
def opened? : List Char → Option (Bracket × List Char)
  | '[' :: rest => some (array, rest)
  | '{' :: rest => some (object, rest)
  | _ => none

/-- The text behind the other bracket, if that is what comes next. -/
def closed? (b : Bracket) (cs : List Char) : Option (List Char) :=
  match b, dropBlanks cs with
  | array, ']' :: rest => some rest
  | object, '}' :: rest => some rest
  | _, _ => none

/-- The text of the next value, which has a name in front of it in an object. -/
def inner? (b : Bracket) (cs : List Char) : Option (List Char) :=
  match b with
  | array => some cs
  | object => (name? cs).map (·.2)

end Bracket

/-- What stands behind a value, and behind the values around it whose brackets are open, the
innermost first. The text begins with the value, or else behind it. Every round takes at least one
character, so `rounds` may be the length of the text. -/
def skip? :
    (rounds : Nat) → (isBehind : Bool) → List Bracket → List Char → Option (List Char)
  | _, true, [], cs => some cs
  | 0, _, _, _ => none
  | rounds + 1, true, b :: outer, cs =>
    match b.closed? cs with
    | some rest => skip? rounds true outer rest
    | none =>
      match dropBlanks cs with
      | ',' :: rest =>
        match b.inner? rest with
        | some rest => skip? rounds false (b :: outer) rest
        | none => none
      | _ => none
  | rounds + 1, false, outer, cs =>
    match Bracket.opened? (dropBlanks cs) with
    | some (b, rest) =>
      match b.closed? rest with
      | some rest => skip? rounds true outer rest
      | none =>
        match b.inner? rest with
        | some rest => skip? rounds false (b :: outer) rest
        | none => none
    | none =>
      match scalar? (dropBlanks cs) with
      | some (_, rest) => skip? rounds true outer rest
      | none => none

/-! ### Reading values -/

/-- A sequence of items with commas between them and the given character behind them, behind its
first character. Every round takes at least one character, so `rounds` may be the length of the
text. -/
def sequence? {α : Type} (item : List Char → Option (α × List Char)) (close : Char) :
    (rounds : Nat) → List Char → Option (List α × List Char)
  | 0, _ => none
  | rounds + 1, cs => do
    let (a, rest) ← item cs
    match dropBlanks rest with
    | ',' :: rest =>
      let (others, rest) ← sequence? item close rounds rest
      some (a :: others, rest)
    | c :: rest => if c = close then some ([a], rest) else none
    | [] => none

/-- A sequence that may be empty. -/
def items? {α : Type} (item : List Char → Option (α × List Char)) (close : Char)
    (cs : List Char) : Option (List α × List Char) :=
  match dropBlanks cs with
  | [] => none
  | c :: rest =>
    if c = close then some ([], rest) else sequence? item close (c :: rest).length (c :: rest)

/-- A member of an object, given a reader for its value. -/
def member? (value : List Char → Option (Json × List Char)) (cs : List Char) :
    Option ((Option String × Json) × List Char) := do
  let (name, rest) ← name? cs
  let (j, rest) ← value rest
  some ((name, j), rest)

/-- The value in front of a text, where `inner` reads the values inside an array or an object. -/
def valueWith? (inner : List Char → Option (Json × List Char)) (cs : List Char) :
    Option (Json × List Char) :=
  match dropBlanks cs with
  | '[' :: rest => (items? inner ']' rest).map fun (items, rest) => (array items, rest)
  | '{' :: rest =>
    (items? (member? inner) '}' rest).map fun (members, rest) => (ofMembers members, rest)
  | cs => scalar? cs

/-- The value in front of a text, with arrays and objects inside each other to the given depth. At
depth zero the empty array is as much too deep as any other. -/
def value? : (depth : Nat) → List Char → Option (Json × List Char)
  | 0, cs =>
    match Bracket.opened? (dropBlanks cs) with
    | some _ => (skip? cs.length false [] cs).map fun rest => (unreadable, rest)
    | none => scalar? (dropBlanks cs)
  | depth + 1, cs => valueWith? (value? depth) cs

/-- How deep arrays and objects may stand inside each other. -/
def maxNesting : Nat := 127

/-- The value of a whole text. -/
def parse? (s : String) : Option Json :=
  match value? maxNesting s.toList with
  | some (j, rest) => if dropBlanks rest = [] then some j else none
  | none => none

end Json

end Stepwise
