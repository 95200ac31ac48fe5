import Stepwise.Json.Report
import Stepwise.Json.Value

/-!
# The console

What a console in front of the library asks for, as JSON text: tokens, compilations, runs, and
single steps.
-/

namespace Stepwise

namespace Console

/-- The version of the library. -/
def version : String := "0.1.0"

/-- The tokens of a text. -/
def tokens (text : String) : String := (Json.array ((Token.scan text).map Token.toJson)).text

/-- The compilation of a text. -/
def compile (text file : String) : String := (Compilation.ofText text file).toJson.text

/-- The budget of a run. Zero asks for the budget that is used where none is given. -/
def budget (gas : Nat) : Nat := if gas = 0 then defaultGas else gas

/-- A run of the program of a text: its last state, or why there is none. -/
def run (text file : String) (gas : Nat) : String :=
  let outcome (success : Bool) (state : List (String × Json)) (report : List String) : Json :=
    .object ([("success", .bool success)] ++ state ++ [("report", .array (report.map .string))])
  match runText text file (budget gas) with
  | .ok state => (outcome true [("state", state.toJson)] []).text
  | .error e => (outcome false [] e.report).text

/-- A step: the event and whether the program has ended. -/
def step (event : Event) (finished : Bool) : String :=
  (Json.object [("trace", .string event.text), ("finished", .bool finished)]).text

end Console

end Stepwise
