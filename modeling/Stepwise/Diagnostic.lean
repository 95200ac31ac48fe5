import Stepwise.Source
import Stepwise.Token.Basic

/-!
# Diagnostics

A diagnostic is a coded message about a place in a text. Errors refuse a program; warnings do
not.

The messages are not made where something is found. What can be found is a `Fault`, and code and
wording are functions of the fault. Read from elsewhere, a diagnostic can hold any code beside any
severity and any message.

## Main definitions

* `Fault` — everything that the checker reports
* `Diagnostic` — a finding as it is shown
-/

namespace Stepwise

/-- How serious a diagnostic is. -/
inductive Severity where
  | error
  | warning
deriving DecidableEq

namespace Severity

/-- The name of a severity in reports. -/
def name : Severity → String
  | error => "error"
  | warning => "warning"

/-- The severity with a name. -/
def ofName? (s : String) : Option Severity := [error, warning].find? fun v => v.name == s

@[simp] theorem ofName?_name (v : Severity) : ofName? v.name = some v := by cases v <;> decide

/-- The severity that goes with a code: those of the third hundred warn. -/
def ofCode (code : UInt16) : Severity := if 200 ≤ code ∧ code ≤ 299 then warning else error

end Severity

/-- The two kinds of statements that enclose others. -/
inductive Block where
  | conditional
  | loop
deriving DecidableEq

namespace Block

/-- The word that opens a block. -/
def name : Block → String
  | conditional => "if"
  | loop => "while"

/-- The word that closes a block. -/
def closer (b : Block) : String := "end-" ++ b.name

end Block

/-- What the checker asks for at one place. -/
inductive Wanted where
  /-- Any token of a kind. -/
  | kind (k : Token.Kind)
  /-- A token of a kind with a given lexeme. -/
  | lexeme (k : Token.Kind) (text : String)
deriving DecidableEq

namespace Wanted

/-- Whether a token is what is wanted. -/
def accepts (t : Token) : Wanted → Bool
  | kind k => t.kind == k
  | lexeme k text => t.kind == k && t.lexeme == text

/-- What is wanted, as messages name it. -/
def name : Wanted → String
  | kind k => k.name
  | lexeme _ text => "'" ++ text ++ "'"

end Wanted

/-- What the checker reports. -/
inductive Fault where
  /-- No statement begins with this lexeme. -/
  | noStatement (lexeme : String)
  /-- The lexeme cannot stand in the condition of a block. -/
  | inCondition (block : Block) (lexeme : String)
  /-- The lexeme cannot stand among the arguments of `write`. -/
  | inWrite (lexeme : String)
  /-- The lexeme cannot stand on the right of an assignment. -/
  | inAssignment (lexeme : String)
  /-- Something else was wanted than what was found, which is nothing at the end of the text. -/
  | wanted (wanted : Wanted) (found : Option String)
  /-- An assignment closes a parenthesis that it did not open. -/
  | strayClose
  /-- The text ends inside the condition of a block. -/
  | openCondition (block : Block)
  /-- The innermost open block, if there is one, is of the other kind. -/
  | unmatchedCloser (block : Block)
  /-- The text ends inside a block. -/
  | openBlock (block : Block)
  /-- The arguments of `write` are not closed. -/
  | openWrite
  /-- An assignment leaves a parenthesis open. -/
  | openAssignment
  /-- `write` is not ended. -/
  | unendedWrite
  /-- `capture` is not ended. -/
  | unendedCapture
  /-- An assignment is not ended. -/
  | unendedAssignment
  /-- A statement is checked but does nothing when the program runs. -/
  | notExecuted (word : String)
deriving DecidableEq

namespace Fault

/-- The code of a fault. -/
def code : Fault → UInt16
  | noStatement _ | inCondition .. | inWrite _ | inAssignment _ => 100
  | wanted .. => 101
  | strayClose | openCondition _ => 102
  | unmatchedCloser _ => 103
  | openBlock _ => 104
  | openWrite | openAssignment => 105
  | unendedWrite | unendedCapture | unendedAssignment => 106
  | notExecuted _ => 200

/-- The message of a fault. -/
def message : Fault → String
  | noStatement lexeme => "unexpected token: " ++ lexeme
  | inCondition block lexeme => "unexpected token in " ++ block.name ++ " condition: " ++ lexeme
  | inWrite lexeme => "unexpected token in write: " ++ lexeme
  | inAssignment lexeme => "unexpected token in assignment: " ++ lexeme
  | wanted w found =>
    "syntax error near \"" ++ found.getD "end of input" ++ "\": expected " ++ w.name
  | strayClose => "closing ')' without matching '('"
  | openCondition block => "malformed " ++ block.name ++ " condition: unbalanced parentheses"
  | unmatchedCloser block => block.closer ++ " without matching " ++ block.name
  | openBlock block => "block '" ++ block.name ++ "' is never closed with " ++ block.closer
  | openWrite => "missing ')' in write statement"
  | openAssignment => "missing closing ')' in assignment"
  | unendedWrite => "write must end with '::'"
  | unendedCapture => "capture must end with '::'"
  | unendedAssignment => "missing '::' at end of assignment"
  | notExecuted word => "'" ++ word ++ "' statements are checked but not executed"

end Fault

/-- A coded message about a place in a text, or about its end if there is no offset. -/
structure Diagnostic where
  code : UInt16
  severity : Severity
  message : String
  offset : Option Nat
deriving DecidableEq

namespace Diagnostic

/-- A diagnostic with the severity of its code. -/
def ofCode (code : UInt16) (message : String) (offset : Option Nat) : Diagnostic :=
  ⟨code, .ofCode code, message, offset⟩

/-- The diagnostic of a fault found at an offset, or at the end of the text. -/
def ofFault (f : Fault) (offset : Option Nat) : Diagnostic := ofCode f.code f.message offset

@[simp] theorem offset_ofFault (f : Fault) (offset : Option Nat) :
    (ofFault f offset).offset = offset := rfl

/-- The text of a code: a letter for the severity that goes with it, and its number. -/
def codeText (code : UInt16) : String :=
  match Severity.ofCode code with
  | .error => "E" ++ toString code.toNat
  | .warning => "W" ++ toString code.toNat

/-- The line of a diagnostic where the text it is about is not at hand. -/
def display (d : Diagnostic) : String :=
  let place := match d.offset with
    | some offset => toString offset
    | none => "end"
  codeText d.code ++ " @" ++ place ++ ": " ++ d.message

/-- The line of a diagnostic in a report, with line and column if it has a place. -/
def render (d : Diagnostic) (s : Source) : String :=
  let place := match d.offset with
    | some offset =>
      let (line, column) := s.location offset
      s.name ++ ":" ++ toString line ++ ":" ++ toString column
    | none => s.name
  place ++ ": " ++ codeText d.code ++ " " ++ d.message

end Diagnostic

end Stepwise
