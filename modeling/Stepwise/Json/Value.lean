import Stepwise.Json.Field
import Stepwise.Machine

/-!
# Values and states as JSON

A number is a number and a text is a text. The three doubles that JSON cannot hold are objects
with their name, so that a text with the same letters stays a text.
-/

namespace Stepwise

namespace Value

/-- The name of a double that is not finite. -/
def specialName (x : Float) : String :=
  if x.isNaN then "NaN" else if Double.isNegative x then "-Infinity" else "Infinity"

/-- The double with such a name. -/
def ofSpecialName? (name : String) : Option Float :=
  if name = "Infinity" then some Double.infinity
  else if name = "-Infinity" then some Double.negInfinity
  else if name = "NaN" then some Double.nan
  else none

/-- A value as data. -/
def toJson : Value → Json
  | number x =>
    if x.isFinite then .double x else .object [("number", .string (specialName x))]
  | text s => .string s

/-- The value of data that are readable in all their parts. -/
def ofReadable? : Json → Option Value
  | .string s => some (text s)
  | .object members =>
    (Json.required members "number" fun j => (j.asName Json.isNull).bind ofSpecialName?).map number
  | j => j.asDouble.map number

/-- The value of data. -/
def ofJson? : Json → Option Value := Json.whole ofReadable?

end Value

namespace Store

/-- A store as data: an object with the names in order. -/
def toJson (s : Store) : Json := .object (s.bindings.map fun b => (b.1, b.2.toJson))

/-- The store of data. Of several values of a name the last counts. -/
def ofJson? (j : Json) : Option Store := do
  let members ← j.asMembers
  let assignments ← members.mapM fun m => (Value.ofJson? m.2).map fun v => (m.1, v)
  some (ofList assignments)

end Store

namespace State

/-- A state as data. The stack is written from the outermost loop to the innermost. -/
def toJson (s : State) : Json :=
  .object [
    ("pc", .int s.pc),
    ("variables", s.store.toJson),
    ("output", .string s.output),
    ("return_stack", .array (s.stack.reverse.map fun (n : Nat) => .int n))]

/-- The state of data. -/
def ofJson? (j : Json) : Option State := do
  let members ← j.asMembers
  let pc ← Json.required members "pc" Json.asWord
  let store ← Json.required members "variables" Store.ofJson?
  let output ← Json.required members "output" Json.asString
  let stack ← Json.required members "return_stack" (Json.asList Json.asWord)
  some ⟨pc, store, output, stack.reverse⟩

end State

end Stepwise
