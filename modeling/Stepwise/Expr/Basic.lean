import Stepwise.Decimal.Layout

/-!
# Expressions

An expression is a tree of binary operators over numbers, texts and names. There is no unary
operator: a negated operand is subtracted from zero.
-/

namespace Stepwise

/-- The binary operators. -/
inductive Operator where
  | add
  | sub
  | mul
  | div
  | eq
  | notEq
  | less
  | greater
  | lessEq
  | greaterEq
  | and
  | or
deriving DecidableEq

namespace Operator

/-- All operators. -/
def all : List Operator :=
  [add, sub, mul, div, eq, notEq, less, greater, lessEq, greaterEq, and, or]

theorem mem_all (op : Operator) : op ∈ all := by cases op <;> decide

/-- The symbol of an operator when an expression is shown. -/
def symbol : Operator → String
  | add => "+"
  | sub => "-"
  | mul => "*"
  | div => "/"
  | eq => "=="
  | notEq => "!="
  | less => "<"
  | greater => ">"
  | lessEq => "<="
  | greaterEq => ">="
  | and => "and"
  | or => "or"

/-- The operator of a lexeme. Equality and inequality have two spellings each, and `not`, which
takes one operand, is no binary operator. -/
def ofLexeme? (lexeme : String) : Option Operator :=
  if lexeme = "=" then some eq
  else if lexeme = "<>" then some notEq
  else all.find? fun op => op.symbol == lexeme

@[simp] theorem ofLexeme?_symbol (op : Operator) : ofLexeme? op.symbol = some op := by
  cases op <;> decide

/-- The name of an operator in data. -/
def name : Operator → String
  | add => "Add"
  | sub => "Sub"
  | mul => "Mul"
  | div => "Div"
  | eq => "Eq"
  | notEq => "NotEq"
  | less => "Less"
  | greater => "Greater"
  | lessEq => "LessEq"
  | greaterEq => "GreaterEq"
  | and => "And"
  | or => "Or"

/-- The operator with a name. -/
def ofName? (s : String) : Option Operator := all.find? fun op => op.name == s

@[simp] theorem ofName?_name (op : Operator) : ofName? op.name = some op := by
  cases op <;> decide

end Operator

/-- An expression. -/
inductive Expr where
  | number (value : Float)
  | text (value : String)
  | name (name : String)
  | binary (op : Operator) (left right : Expr)
deriving DecidableEq

namespace Expr

/-- The literal zero. -/
def zero : Expr := number 0

/-- The negation of an operand. -/
def negate (e : Expr) : Expr := binary .sub zero e

/-- An expression as it is shown, with parentheses around every operator. -/
def display : Expr → String
  | number value => numberText value
  | text value => "\"" ++ value ++ "\""
  | name s => s
  | binary op left right => "(" ++ left.display ++ " " ++ op.symbol ++ " " ++ right.display ++ ")"

end Expr

end Stepwise
