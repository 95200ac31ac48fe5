import Stepwise.Compilation
import Stepwise.Json.Program

/-!
# Tokens, diagnostics and compilations as JSON

What is not there has no field: the offset of a diagnostic at the end of a text, the notes if there
are none, and the program of a text that is none.
-/

namespace Stepwise

namespace Span

/-- A span as data. -/
def toJson (s : Span) : Json := .object [("start", .int s.start), ("end", .int s.stop)]

/-- The span of data. -/
def ofJson? (j : Json) : Option Span := do
  let members ← j.asMembers
  let start ← Json.required members "start" Json.asWord
  let stop ← Json.required members "end" Json.asWord
  some ⟨start, stop⟩

end Span

namespace Token

/-- The kind of data. -/
def Kind.ofJson? (j : Json) : Option Kind := (j.asName Json.isNull).bind ofName?

/-- A token as data. -/
def toJson (t : Token) : Json :=
  .object [("kind", .string t.kind.name), ("lexeme", .string t.lexeme), ("span", t.span.toJson)]

/-- The token of data. -/
def ofJson? (j : Json) : Option Token := do
  let members ← j.asMembers
  let kind ← Json.required members "kind" Kind.ofJson?
  let lexeme ← Json.required members "lexeme" Json.asString
  let span ← Json.required members "span" Span.ofJson?
  some ⟨kind, lexeme, span⟩

end Token

/-- The severity of data. -/
def Severity.ofJson? (j : Json) : Option Severity := (j.asName Json.isNull).bind ofName?

namespace Diagnostic

/-- A code as data. -/
def codeOfJson? (j : Json) : Option UInt16 := (j.asNatBelow UInt16.size).map UInt16.ofNat

/-- A diagnostic as data. -/
def toJson (d : Diagnostic) : Json :=
  .object ([
    ("code", .int d.code.toNat),
    ("severity", .string d.severity.name),
    ("message", .string d.message)] ++
    d.offset.toList.map fun (offset : Nat) => ("offset", .int offset))

/-- The diagnostic of data. -/
def ofJson? (j : Json) : Option Diagnostic := do
  let members ← j.asMembers
  let code ← Json.required members "code" codeOfJson?
  let severity ← Json.required members "severity" Severity.ofJson?
  let message ← Json.required members "message" Json.asString
  let offset ← Json.optional members "offset" (Json.asNullable Json.asWord) none
  some ⟨code, severity, message, offset⟩

end Diagnostic

namespace Compilation

/-- A compilation as data. -/
def toJson (c : Compilation) : Json :=
  .object ([
    ("success", .bool c.success),
    ("diagnostics", .array (c.diagnostics.map Diagnostic.toJson))] ++
    (if c.notes = [] then [] else [("notes", .array (c.notes.map Diagnostic.toJson))]) ++
    [("report", .array (c.report.map .string))] ++
    c.program.toList.map fun program => ("instructions", program.toJson))

/-- The compilation of data. -/
def ofJson? (j : Json) : Option Compilation := do
  let members ← j.asMembers
  let success ← Json.required members "success" Json.asBool
  let diagnostics ← Json.required members "diagnostics" (Json.asList Diagnostic.ofJson?)
  let notes ← Json.optional members "notes" (Json.asList Diagnostic.ofJson?) []
  let report ← Json.required members "report" (Json.asList Json.asString)
  let program ← Json.optional members "instructions" (Json.asNullable Program.ofJson?) none
  some ⟨success, diagnostics, notes, report, program⟩

end Compilation

end Stepwise
