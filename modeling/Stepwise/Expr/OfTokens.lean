import Stepwise.Decimal.Numeral
import Stepwise.Expr.Basic
import Stepwise.Reading

/-!
# Reading expressions

An expression is a chain of terms joined by `+` and `-`, a term a chain of operands joined by `*`
and `/`, and chains associate to the left. An operand is a number, a name, a text, an expression
in parentheses, or an operand behind a minus.

Reading never fails. Where no operand can begin, the operand is zero and nothing is read, so that
the caller finds the token that is in the way. A parenthesis that is not closed is closed where
the expression in it ends.

Operands inside operands are read down to a fixed depth. At that depth a parenthesis or a minus is
still read, but what it stands for is zero and nothing behind it is read. The depth left is an
argument of the reader and not a counter that goes up and down, so every operand of a chain has
the same depth at its disposal as the one before.

## Main definitions

* `Expr.expression` — the expression in front of a token list
* `Expr.condition` — the condition in front of a token list
-/

namespace Stepwise

namespace Expr

/-- How deep operands may stand inside operands. -/
def maxDepth : Nat := 64

/-- The text between the quotes of a lexeme, or the lexeme itself if it is not quoted. -/
def unquote (lexeme : String) : String :=
  match lexeme.toList with
  | '"' :: cs => if cs.getLast? = some '"' then String.ofList cs.dropLast else lexeme
  | _ => lexeme

/-- The literal of a number lexeme. Only a token made by hand holds no numeral, and it reads as
zero. -/
def literal (lexeme : String) : Expr :=
  match Numeral.read? lexeme.toList with
  | some value => .number value
  | none => zero

/-- The operator of an arithmetic token, if it is one of those given. -/
def operatorAmong? (operators : List Operator) (t : Token) : Option Operator :=
  if t.kind = .arithmetic then (Operator.ofLexeme? t.lexeme).filter operators.contains else none

/-- Goes on with a chain of which `left` has been read, as long as one of the given operators
follows. -/
def chain (operators : List Operator) (item : Reader Expr) (left : Expr) : Reader Expr
  | [] => .stay left []
  | t :: ts =>
    match operatorAmong? operators t with
    | none => .stay left (t :: ts)
    | some op =>
      let right := item ts
      let whole := chain operators item (.binary op left right.value) right.rest
      ⟨whole.value, whole.rest,
        whole.rest_suffix.trans (right.rest_suffix.trans (List.suffix_cons t ts))⟩
termination_by tokens => tokens.length
decreasing_by
  have := (item ts).length_rest_le
  simp only [List.length_cons]
  omega

@[simp] theorem value_chain_nil (operators : List Operator) (item : Reader Expr) (left : Expr) :
    (chain operators item left []).value = left := by simp [chain]

@[simp] theorem rest_chain_nil (operators : List Operator) (item : Reader Expr) (left : Expr) :
    (chain operators item left []).rest = [] := by simp [chain]

theorem value_chain_of_none {operators : List Operator} {item : Reader Expr} {left : Expr}
    {t : Token} {ts : List Token} (h : operatorAmong? operators t = none) :
    (chain operators item left (t :: ts)).value = left := by
  rw [chain]
  split
  · rfl
  · simp_all

theorem rest_chain_of_none {operators : List Operator} {item : Reader Expr} {left : Expr}
    {t : Token} {ts : List Token} (h : operatorAmong? operators t = none) :
    (chain operators item left (t :: ts)).rest = t :: ts := by
  rw [chain]
  split
  · rfl
  · simp_all

theorem value_chain_of_some {operators : List Operator} {item : Reader Expr} {left : Expr}
    {t : Token} {ts : List Token} {op : Operator} (h : operatorAmong? operators t = some op) :
    (chain operators item left (t :: ts)).value =
      (chain operators item (.binary op left (item ts).value) (item ts).rest).value := by
  rw [chain]
  split
  · simp_all
  · simp_all

theorem rest_chain_of_some {operators : List Operator} {item : Reader Expr} {left : Expr}
    {t : Token} {ts : List Token} {op : Operator} (h : operatorAmong? operators t = some op) :
    (chain operators item left (t :: ts)).rest =
      (chain operators item (.binary op left (item ts).value) (item ts).rest).rest := by
  rw [chain]
  split
  · simp_all
  · simp_all

/-- Induction on the way in which a chain is read: nothing is left, none of the operators follows,
or one follows with an item behind it. -/
theorem chain_induction (operators : List Operator) (item : Reader Expr)
    {motive : Expr → List Token → Prop} (nil : ∀ left, motive left [])
    (stop : ∀ left t ts, operatorAmong? operators t = none → motive left (t :: ts))
    (operator : ∀ left t ts op, operatorAmong? operators t = some op →
      motive (.binary op left (item ts).value) (item ts).rest → motive left (t :: ts))
    (left : Expr) (tokens : List Token) : motive left tokens := by
  induction left, tokens using chain.induct operators item with
  | case1 left => exact nil left
  | case2 left t ts hop => exact stop left t ts hop
  | case3 left t ts op hop right ih _ => exact operator left t ts op hop ih

/-- A chain of items joined by the given operators. -/
def chained (operators : List Operator) (item : Reader Expr) : Reader Expr := fun tokens =>
  (item tokens).andThen (chain operators item)

/-- A chain of chains of operands, by precedence. -/
def sum (operand : Reader Expr) : Reader Expr := chained [.add, .sub] (chained [.mul, .div] operand)

/-- Reads a closing parenthesis if it is there. -/
def closed (e : Expr) : Reader Expr
  | [] => .stay e []
  | t :: ts => if t.isParen ")" then .skip e t ts else .stay e (t :: ts)

/-- An operand, where `grouped` reads what stands behind an opening parenthesis and `negated` what
stands behind a minus. -/
def operandWith (grouped negated : Reader Expr) : Reader Expr
  | [] => .stay zero []
  | t :: ts =>
    match t.kind with
    | .number => .skip (literal t.lexeme) t ts
    | .identifier => if t.isLoopWord then .stay zero (t :: ts) else .skip (.name t.lexeme) t ts
    | .string => .skip (.text (unquote t.lexeme)) t ts
    | .paren => if t.lexeme = "(" then (grouped ts).behind t else .stay zero (t :: ts)
    | .arithmetic => if t.lexeme = "-" then (negated ts).behind t else .stay zero (t :: ts)
    | _ => .stay zero (t :: ts)

/-- An operand in which operands may stand to the given depth. -/
def operand : Nat → Reader Expr
  | 0 => operandWith (.stay zero) (.stay zero)
  | depth + 1 =>
    operandWith (fun ts => (sum (operand depth) ts).andThen closed)
      (fun ts => (operand depth ts).map negate)

/-- An expression in which operands may stand to the given depth. -/
def expressionWithin (depth : Nat) : Reader Expr := sum (operand depth)

/-- The expression in front of a token list. -/
def expression : Reader Expr := expressionWithin maxDepth

/-- Whether a token can join the two sides of a condition. -/
def joinsCondition (t : Token) : Bool :=
  t.kind == .relation || t.kind == .logic || t.kind == .assign

/-- The condition in front of a token list: an expression, or two joined by a single relation or
logic word. If what joins them takes no two operands, the whole condition is zero. -/
def condition : Reader Expr := fun tokens =>
  (expression tokens).andThen fun left rest =>
    match rest with
    | [] => .stay left []
    | t :: ts =>
      if joinsCondition t then
        ((expression ts).map fun right =>
          match Operator.ofLexeme? t.lexeme with
          | some op => .binary op left right
          | none => zero).behind t
      else .stay left (t :: ts)

end Expr

end Stepwise
