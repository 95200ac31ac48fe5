import Stepwise.Depth
import Stepwise.Expr.OfTokens
import Stepwise.Stmt.Basic

/-!
# Reading statements

Statements are read in two passes. The first cuts the tokens into clauses: the head of a loop, the
end of one, an assignment, a `write`. Whatever begins none of them is passed over, one token at a
time, so conditionals and `capture` leave nothing. Every clause reads at least the token it begins
with, and no clause lies inside another.

The second pass nests the clauses. An end closes the innermost loop that is open; one that closes
nothing is passed over, and a loop that nothing closes reaches to the end of the text. Read from
the back, that is a plain fold: what has been collected goes into the body of a loop when its head
comes, and an end begins a new body.

Reading never fails and reports nothing. It does not rely on the tokens having been checked.

## Main definitions

* `Clause.read` — the clause in front of a token list
* `Clause.ofTokens` — the first pass
* `Stmt.ofClauses` — the second pass
* `Stmt.ofTokens` — both
-/

namespace Stepwise

/-- A piece of a program that reads as a whole. -/
inductive Clause where
  /-- The head of a loop. -/
  | loop (condition : Expr)
  /-- The end of a loop. -/
  | loopEnd
  | assign (target : String) (value : Expr)
  | write (args : List Expr)
deriving DecidableEq

namespace Clause

/-! ### Where clauses end -/

/-- What is left behind the parenthesis that brings the number of open ones to zero. Stops in
front of the end of a statement or a word of a loop. -/
def skipPastClose {κ : Type} [Depth κ] (depth : κ) : Reader Unit
  | [] => .stay () []
  | t :: ts =>
    if t.isLoopWord ∨ t.kind = .terminator then .stay () (t :: ts)
    else if t.isParen "(" then (skipPastClose (Depth.up depth) ts).behind t
    else if t.isParen ")" then
      let depth := Depth.down depth
      if Depth.isZero depth then .skip () t ts else (skipPastClose depth ts).behind t
    else (skipPastClose depth ts).behind t

/-- What is left behind the end of a statement. Stops in front of a word that begins or ends
another one. -/
def skipPastTerminator : Reader Unit
  | [] => .stay () []
  | t :: ts =>
    if t.kind = .terminator then .skip () t ts
    else if t.kind = .keyword ∨ t.isLoopWord then .stay () (t :: ts)
    else (skipPastTerminator ts).behind t

/-- Whether the arguments of `write` end in front of a token. -/
def endsArguments (t : Token) : Bool :=
  t.kind == .terminator || t.kind == .keyword || t.isLoopWord

/-! ### The clauses -/

/-- The head of a loop behind its first word. Its parentheses may be missing. -/
def header (κ : Type) [Depth κ] : Reader Expr
  | [] => Expr.condition []
  | t :: ts =>
    if t.isParen "(" then
      ((Expr.condition ts).andThen fun e rest =>
        (skipPastClose (Depth.one : κ) rest).map fun _ => e).behind t
    else Expr.condition (t :: ts)

/-- An assignment behind its first two tokens. -/
def assignment : Reader Expr := fun tokens =>
  (Expr.expression tokens).andThen fun e rest => (skipPastTerminator rest).map fun _ => e

/-- The arguments of `write` behind the opening parenthesis, if there is one. Commas are passed
over wherever they stand. A token at which no expression begins is passed over too, and counts as
the argument zero. -/
def arguments : Reader (List Expr)
  | [] => .stay [] []
  | t :: ts =>
    if t.isParen ")" then .skip [] t ts
    else if t.kind = .comma then (arguments ts).behind t
    else if endsArguments t then .stay [] (t :: ts)
    else
      let e := Expr.expression (t :: ts)
      if _h : e.rest.length ≤ ts.length then
        let others := arguments e.rest
        ⟨e.value :: others.value, others.rest, others.rest_suffix.trans e.rest_suffix⟩
      else ((arguments ts).map (e.value :: ·)).behind t
termination_by tokens => tokens.length
decreasing_by
  · simp only [List.length_cons]; omega
  · have : (Expr.expression (t :: ts)).rest.length ≤ ts.length := _h
    simp only [List.length_cons]
    omega
  · simp only [List.length_cons]; omega

/-- Reads the end of a statement if it is there. -/
def ended {α : Type} (a : α) : Reader α
  | [] => .stay a []
  | t :: ts => if t.kind = .terminator then .skip a t ts else .stay a (t :: ts)

/-- What stands behind `write`. -/
def argumentList : Reader (List Expr)
  | [] => .stay [] []
  | t :: ts =>
    if t.isParen "(" then ((arguments ts).andThen ended).behind t
    else (arguments (t :: ts)).andThen ended

/-- The assignment of which the target has been read, if the next token makes it one. -/
def assignment? (target : Token) : (tokens : List Token) → Option (Reading Clause tokens)
  | [] => none
  | t :: ts =>
    if target.kind = .identifier ∧ ¬ target.isLoopWord ∧ t.kind = .assign then
      some (((assignment ts).map (.assign target.lexeme)).behind t)
    else none

/-- The clause that begins with `t`, or nothing if no clause begins there. -/
def read (κ : Type) [Depth κ] (t : Token) : Reader (Option Clause) := fun tokens =>
  if t.isWord "while" then (header κ tokens).map fun e => some (.loop e)
  else if t.isWord "end-while" then .stay (some .loopEnd) tokens
  else
    match assignment? t tokens with
    | some reading => reading.map some
    | none =>
      if t.isWord "write" then (argumentList tokens).map fun args => some (.write args)
      else .stay none tokens

/-- The clauses of a token list. -/
def ofTokens (κ : Type) [Depth κ] : List Token → List Clause
  | [] => []
  | t :: ts =>
    let reading := read κ t ts
    reading.value.toList ++ ofTokens κ reading.rest
termination_by tokens => tokens.length
decreasing_by
  have := (read κ t ts).length_rest_le
  simp only [List.length_cons]
  omega

@[simp] theorem ofTokens_nil (κ : Type) [Depth κ] : ofTokens κ [] = [] := by simp [ofTokens]

theorem ofTokens_cons (κ : Type) [Depth κ] (t : Token) (ts : List Token) :
    ofTokens κ (t :: ts) = (read κ t ts).value.toList ++ ofTokens κ (read κ t ts).rest := by
  rw [ofTokens]

end Clause

namespace Stmt

/-- The statements of a list of clauses, in parts: those up to the first end that closes nothing,
and those between any two such ends, and behind the last. -/
def partsOfClauses : List Clause → List Stmt × List (List Stmt)
  | [] => ([], [])
  | clause :: rest =>
    let (body, behind) := partsOfClauses rest
    match clause with
    | .assign target value => (.assign target value :: body, behind)
    | .write args => (.write args :: body, behind)
    | .loopEnd => ([], body :: behind)
    | .loop condition =>
      match behind with
      | [] => ([.loop condition body], [])
      | next :: behind => (.loop condition body :: next, behind)

/-- The statements of a list of clauses. -/
def ofClauses (clauses : List Clause) : List Stmt :=
  let (first, others) := partsOfClauses clauses
  first ++ others.flatten

/-- The statements of a token list, with parentheses counted in `κ`. -/
def ofTokensIn (κ : Type) [Depth κ] (tokens : List Token) : List Stmt :=
  ofClauses (Clause.ofTokens κ tokens)

/-- The statements of a token list. -/
abbrev ofTokens (tokens : List Token) : List Stmt := ofTokensIn Int tokens

end Stmt

end Stepwise
