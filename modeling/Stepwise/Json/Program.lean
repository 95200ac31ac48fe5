import Stepwise.Instruction
import Stepwise.Json.Field

/-!
# Expressions and instructions as JSON

Each is an object whose field `kind` says which of them it is, and each is read as a whole. The
kind of an expression inside an operator or an instruction may also be given by its place in the
list of kinds.
-/

namespace Stepwise

namespace Operator

/-- The operator of data. -/
def ofJson? (j : Json) : Option Operator := (j.asName Json.isNull).bind ofName?

/-- The operator of data inside an expression. -/
def ofInnerJson? (j : Json) : Option Operator := (j.asName Json.isVoid).bind ofName?

end Operator

namespace Expr

/-- The kinds of expressions. -/
inductive Kind where
  | number
  | text
  | name
  | binary

namespace Kind

/-- All kinds in their order. -/
def all : List Kind := [number, text, name, binary]

/-- The name of a kind in data. -/
def label : Kind → String
  | number => "number"
  | text => "str"
  | name => "identifier"
  | binary => "binary"

/-- The kind of data. -/
def ofJson? (j : Json) : Option Kind :=
  j.asString.bind fun s => all.find? fun k => k.label == s

/-- The kind of data inside an operator or an instruction. -/
def ofInnerJson? : Json → Option Kind
  | .int n => if 0 ≤ n then all[n.toNat]? else none
  | j => ofJson? j

end Kind

/-- An expression as data. -/
def toJson : Expr → Json
  | number value => .object [("kind", .string Kind.number.label), ("value", .double value)]
  | text value => .object [("kind", .string Kind.text.label), ("value", .string value)]
  | name s => .object [("kind", .string Kind.name.label), ("name", .string s)]
  | binary op left right =>
    .object [
      ("kind", .string Kind.binary.label),
      ("op", .string op.name),
      ("left", left.toJson),
      ("right", right.toJson)]

/-- The expression of the members of an object, with further objects inside each other to the given
depth. -/
def ofMembers? (kindOf : Json → Option Kind) :
    (depth : Nat) → List (String × Json) → Option Expr
  | 0, _ => none
  | depth + 1, members => do
    let operand (j : Json) := j.asMembers.bind (ofMembers? Kind.ofInnerJson? depth)
    match ← Json.required members "kind" kindOf with
    | .number => (Json.required members "value" Json.asDouble).map number
    | .text => (Json.required members "value" Json.asString).map text
    | .name => (Json.required members "name" Json.asString).map name
    | .binary =>
      let op ← Json.required members "op" Operator.ofInnerJson?
      let left ← Json.required members "left" operand
      let right ← Json.required members "right" operand
      some (binary op left right)

/-- The expression of data inside an operator or an instruction. Its operators stand no deeper
inside each other than the objects. -/
def ofInnerJson? (j : Json) : Option Expr :=
  j.asMembers.bind (ofMembers? Kind.ofInnerJson? j.nesting)

/-- The expression of data. -/
def ofJson? : Json → Option Expr :=
  Json.whole fun j => j.asMembers.bind (ofMembers? Kind.ofJson? j.nesting)

end Expr

namespace Instruction

/-- An instruction as data. -/
def toJson : Instruction → Json
  | loop condition stop =>
    .object [("kind", .string "loop"), ("condition", condition.toJson), ("end", .int stop)]
  | loopEnd => .object [("kind", .string "loop_end")]
  | assign target value =>
    .object [("kind", .string "assign"), ("target", .string target), ("value", value.toJson)]
  | write args => .object [("kind", .string "write"), ("args", .array (args.map Expr.toJson))]

/-- The instruction of data that are readable in all their parts. -/
def ofReadable? (j : Json) : Option Instruction := do
  let members ← j.asMembers
  let kind ← Json.required members "kind" Json.asString
  if kind = "loop" then do
    let condition ← Json.required members "condition" Expr.ofInnerJson?
    let stop ← Json.required members "end" Json.asWord
    some (loop condition stop)
  else if kind = "loop_end" then some loopEnd
  else if kind = "assign" then do
    let target ← Json.required members "target" Json.asString
    let value ← Json.required members "value" Expr.ofInnerJson?
    some (assign target value)
  else if kind = "write" then
    (Json.required members "args" (Json.asList Expr.ofInnerJson?)).map write
  else none

/-- The instruction of data. -/
def ofJson? : Json → Option Instruction := Json.whole ofReadable?

end Instruction

namespace Program

/-- A program as data. -/
def toJson (program : Program) : Json := .array (program.map Instruction.toJson)

/-- The program of data. -/
def ofJson? : Json → Option Program := Json.asList Instruction.ofJson?

end Program

end Stepwise
