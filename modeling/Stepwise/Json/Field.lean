import Stepwise.Json.Parse

/-!
# Taking JSON apart

A form is an object with certain fields. Fields may stand in any order, and fields that the form
does not have are passed over, even where they are no data; a field of the form that stands there
twice makes the object none of that form. Other forms are read as a whole, and then a part that is
no data makes the whole unreadable wherever it stands.

The functions here answer with nothing where the data do not have the form that is asked for.

## Main definitions

* `Json.required`, `Json.optional` — the fields of a form
* `Json.asName` — a name out of a list of names
* `Json.whole` — a form that is read as a whole
-/

namespace Stepwise

namespace Json

variable {α : Type}

/-! ### Values -/

/-- Truth. -/
def asBool : Json → Option Bool
  | bool b => some b
  | _ => none

/-- A text. -/
def asString : Json → Option String
  | string s => some s
  | _ => none

/-- A double. An integer counts as the nearest one. -/
def asDouble : Json → Option Float
  | double x => some x
  | int n => some (Decimal.toFloat ⟨n < 0, n.natAbs, 0⟩)
  | _ => none

/-- A natural number below a bound. -/
def asNatBelow (bound : Nat) : Json → Option Nat
  | int n => if 0 ≤ n ∧ n.toNat < bound then some n.toNat else none
  | _ => none

/-- A natural number of 64 bits. -/
def asWord : Json → Option Nat := asNatBelow UInt64.size

/-- A list, with its items taken apart. -/
def asList (item : Json → Option α) : Json → Option (List α)
  | array items => items.mapM item
  | _ => none

/-- The members of an object. -/
def asMembers : Json → Option (List (String × Json))
  | object members => some members
  | _ => none

/-- Whether a value is `null`. -/
def isNull : Json → Bool
  | null => true
  | _ => false

/-- Whether a value is `null` or an object without members. -/
def isVoid : Json → Bool
  | null => true
  | object [] => true
  | _ => false

/-- A name out of a list of names that might have had contents. It is written as a text, or as the
only member of an object, whose value says that there are no contents. -/
def asName (isEmpty : Json → Bool) : Json → Option String
  | string s => some s
  | object [(s, contents)] => if isEmpty contents then some s else none
  | _ => none

/-- What is read as a whole: all its parts have to be data, also those that are passed over. -/
def whole (decode : Json → Option α) (j : Json) : Option α :=
  if j.isReadable then decode j else none

/-- Something, or `null` for nothing. -/
def asNullable (decode : Json → Option α) : Json → Option (Option α)
  | null => some none
  | j => (decode j).map some

/-! ### Fields -/

/-- What stands under a name in an object. -/
def named (members : List (String × Json)) (name : String) : List Json :=
  (members.filter fun m => m.1 == name).map (·.2)

/-- A field that has to be there. -/
def required (members : List (String × Json)) (name : String) (decode : Json → Option α) :
    Option α :=
  match named members name with
  | [j] => decode j
  | _ => none

/-- A field that may be missing, and the value that it has then. -/
def optional (members : List (String × Json)) (name : String) (decode : Json → Option α)
    (missing : α) : Option α :=
  match named members name with
  | [] => some missing
  | [j] => decode j
  | _ => none

end Json

end Stepwise
