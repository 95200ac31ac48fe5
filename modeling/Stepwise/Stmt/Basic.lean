import Stepwise.Expr.Basic

/-!
# Statements

A statement assigns, writes, or repeats a list of statements. Other constructs of the language
are checked but have no statement.
-/

namespace Stepwise

/-- A statement. -/
inductive Stmt where
  | loop (condition : Expr) (body : List Stmt)
  | assign (target : String) (value : Expr)
  | write (args : List Expr)

end Stepwise
