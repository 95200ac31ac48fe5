import Stepwise.Check
import Stepwise.Session
import Stepwise.Stmt.OfTokens
import Stepwise.Token.Scan

/-!
# Compiling a text

A text is cut into tokens, the tokens are checked, and if nothing is wrong with them they are read
as a program. The checker and the reader do not know of each other: the reader makes a program of
any tokens, and it is here that only accepted tokens get one.

## Main definitions

* `Program.ofTokens` — the program of a token list, accepted or not
* `Compilation.ofText` — everything there is to say about a text
* `Session.start` — a session of an accepted text
-/

namespace Stepwise

/-- The program of a token list, with parentheses and loops counted in `κ`. -/
def Program.ofTokensIn (κ : Type) [Depth κ] (tokens : List Token) : Program :=
  linkIn κ (Instruction.ofStmts (Stmt.ofTokensIn κ tokens))

/-- The program of a token list. -/
abbrev Program.ofTokens (tokens : List Token) : Program := ofTokensIn Int tokens

theorem Program.ofTokens_eq (tokens : List Token) :
    ofTokens tokens = ofStmts (Stmt.ofTokens tokens) := rfl

/-- What compiling a text has to say. -/
structure Compilation where
  success : Bool
  /-- What is wrong with the text. -/
  diagnostics : List Diagnostic
  /-- Statements that are checked but do nothing. -/
  notes : List Diagnostic
  /-- The diagnostics with lines and columns. -/
  report : List String
  /-- The program, if nothing is wrong with the text. -/
  program : Option Program
deriving DecidableEq

namespace Compilation

/-- Compiles a text. -/
def ofText (text file : String) : Compilation :=
  let source := Source.ofText file text
  let tokens := Token.scan text
  let diagnostics := validate tokens
  let success := diagnostics.isEmpty
  { success := success
    diagnostics := diagnostics
    notes := notExecutedNotes tokens
    report := diagnostics.map (·.render source)
    program := if success then some (Program.ofTokens tokens) else none }

end Compilation

/-- A text is no program. -/
structure InvalidProgram where
  report : List String
deriving DecidableEq

namespace InvalidProgram

/-- What is said about a text that is no program. -/
def message (e : InvalidProgram) : String :=
  "program has " ++ toString e.report.length ++ " syntax error(s)"

end InvalidProgram

/-- Why a text was not run to its end. -/
inductive RunError where
  | invalid (e : InvalidProgram)
  | gas (e : GasExhausted)
deriving DecidableEq

namespace RunError

/-- The lines that report an error. -/
def report : RunError → List String
  | invalid e => e.report
  | gas e => [e.message]

end RunError

/-- A session of the program of a text, if nothing is wrong with it. -/
def Session.start (text file : String) : Except InvalidProgram Session :=
  let compilation := Compilation.ofText text file
  match compilation.program with
  | some program => .ok (.ofProgram program)
  | none => .error ⟨compilation.report⟩

/-- Runs the program of a text to its end. -/
def runText (text file : String) (gas : Nat) : Except RunError State :=
  match Session.start text file with
  | .error e => .error (.invalid e)
  | .ok session =>
    match (session.withLimit gas).finish with
    | (after, none) => .ok after.state
    | (_, some e) => .error (.gas e)

end Stepwise
