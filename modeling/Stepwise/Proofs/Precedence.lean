import Stepwise.Proofs.Operands

/-!
# Precedence

An expression is written as a sum of products of operands. The grammar is

```
sum     = product { ("+" | "-") product }
product = operand { ("*" | "/") operand }
operand = NUMBER | NAME | TEXT | "(" sum ")" | "-" operand
```

and what is written that way is read as the tree of its derivation. Chains associate to the left, a
minus in front of an operand subtracts it from zero, and parentheses leave no trace.

Derivations are the data type `Formula`. A chain is taken apart at its last sign, so that it is
built from the left, as its tree is.

How a part of an expression is read depends on what may follow it. An operand is complete in itself.
A product may go on with `*` and `/`, and so may a sum, whose last product may go on. So what is
shown of a chain is not that it is read, but that reading it comes down to going on with a chain of
which its tree has been read. That is kept when a sign and a further item are added, and a chain is
done where none of its signs follows.

## Main definitions

* `Grammar.Formula` — derivations of sums, products and operands
* `Expr.Reads` — what the readers make of a part of an expression

## Main results

* `Expr.reads_formula` — sums, products and operands are read as their trees
* `Grammar.Formula.tree_eq_of_tokens` — the grammar is not ambiguous
* `pair_expression_of_formula` — an expression is read up to its end, as its tree
-/

namespace Stepwise

namespace Grammar

/-! ### Derivations -/

/-- The categories of the grammar of expressions. -/
inductive Category where
  | sum
  | product
  | operand

/-- An arithmetic token that is one of the given operators. -/
structure Sign (operators : List Operator) where
  op : Operator
  token : Token
  op_mem : op ∈ operators
  kind_lexeme : token.kind = .arithmetic ∧ token.lexeme = op.symbol

/-- Derivations in the grammar of expressions. -/
inductive Formula : Category → Type where
  | leaf (t : Token) (value : Expr) (isLeaf : t.leaf? = some value) : Formula .operand
  | group (left : Left) (inner : Formula .sum) (right : Right) : Formula .operand
  | negation (minus : Terminal (.lexeme .arithmetic "-")) (inner : Formula .operand) :
    Formula .operand
  | factor (inner : Formula .operand) : Formula .product
  | times (left : Formula .product) (sign : Sign [.mul, .div]) (right : Formula .operand) :
    Formula .product
  | term (inner : Formula .product) : Formula .sum
  | plus (left : Formula .sum) (sign : Sign [.add, .sub]) (right : Formula .product) :
    Formula .sum

namespace Formula

variable {c : Category}

/-- The tokens of a derivation. -/
def tokens : {c : Category} → Formula c → List Token
  | _, leaf t _ _ => [t]
  | _, group left inner right => left.1 :: (inner.tokens ++ [right.1])
  | _, negation minus inner => minus.1 :: inner.tokens
  | _, factor inner => inner.tokens
  | _, times left sign right => left.tokens ++ sign.token :: right.tokens
  | _, term inner => inner.tokens
  | _, plus left sign right => left.tokens ++ sign.token :: right.tokens

/-- The tree of a derivation. -/
def tree : {c : Category} → Formula c → Expr
  | _, leaf _ value _ => value
  | _, group _ inner _ => inner.tree
  | _, negation _ inner => .negate inner.tree
  | _, factor inner => inner.tree
  | _, times left sign right => .binary sign.op left.tree right.tree
  | _, term inner => inner.tree
  | _, plus left sign right => .binary sign.op left.tree right.tree

/-- How deep parentheses and minuses are nested. -/
def nesting : {c : Category} → Formula c → Nat
  | _, leaf .. => 0
  | _, group _ inner _ => inner.nesting + 1
  | _, negation _ inner => inner.nesting + 1
  | _, factor inner => inner.nesting
  | _, times left _ right => max left.nesting right.nesting
  | _, term inner => inner.nesting
  | _, plus left _ right => max left.nesting right.nesting

end Formula

end Grammar

namespace Expr

open Grammar Reading

variable {operators : List Operator} {item : Reader Expr} {depth : Nat} {e e' : Expr}
  {tokens tokens' rest : List Token}

/-! ### Chains -/

/-- A sign is one of its operators, and none of any others. -/
theorem operatorAmong?_sign (sign : Sign operators) :
    operatorAmong? operators sign.token = some sign.op := by
  rw [operatorAmong?_of_symbol sign.kind_lexeme, if_pos sign.op_mem]

theorem noOperator_product_of_sign (sign : Sign [.add, .sub]) (rest : List Token) :
    NoOperator [.mul, .div] (sign.token :: rest) := by
  have hnone : sign.op ∉ [Operator.mul, .div] := by
    have hmem := sign.op_mem
    revert hmem
    cases sign.op <;> decide
  rintro t ts hts
  cases hts
  rw [operatorAmong?_of_symbol sign.kind_lexeme, if_neg hnone]

theorem noOperator_of_right (right : Right) (rest : List Token) :
    NoOperator operators (right.1 :: rest) := by
  rintro t ts hts
  cases hts
  exact operatorAmong?_of_isEnd (.inr right.2)

theorem NoSign.noOperator (h : NoSign rest) (hoperators : operators ⊆ [.add, .sub, .mul, .div]) :
    NoOperator operators rest := by
  intro t ts hts
  cases hop : operatorAmong? operators t with
  | none => rfl
  | some op =>
    have hsign := Token.isSign_of_operatorAmong? hoperators hop
    rw [h t ts hts] at hsign
    cases hsign

theorem noOperator_nil : NoOperator operators [] := fun t ts hts => by cases hts

/-- A chain is done where none of its operators follows. -/
theorem pair_chain_of_noOperator (h : NoOperator operators rest) (e : Expr) :
    (chain operators item e rest).pair = (e, rest) := by
  cases rest with
  | nil => rw [pair, value_chain_nil, rest_chain_nil]
  | cons t ts => exact pair_chain_of_none (h t ts rfl)

/-- A chain begins with an item. -/
theorem pair_chained_of_item (h : (item tokens).pair = (e, rest)) :
    (chained operators item tokens).pair = (chain operators item e rest).pair := by
  rw [chained, pair_andThen h]

/-- A chain goes on with a sign and a further item. -/
theorem pair_chain_sign (sign : Sign operators) (h : (item tokens).pair = (e', rest)) (e : Expr) :
    (chain operators item e (sign.token :: tokens)).pair =
      (chain operators item (.binary sign.op e e') rest).pair :=
  pair_chain_of_some (operatorAmong?_sign sign) h

/-! ### Reading a derivation -/

/-- The tokens are read as `e` in front of any rest that does not go on with them. What is read of
a chain is its beginning: it is left to the rest whether the chain goes on. -/
def Reads (depth : Nat) (tokens : List Token) (e : Expr) : Category → Prop
  | .operand => ∀ rest, (operand depth (tokens ++ rest)).pair = (e, rest)
  | .product => ∀ rest, (chained [.mul, .div] (operand depth) (tokens ++ rest)).pair =
      (chain [.mul, .div] (operand depth) e rest).pair
  | .sum => ∀ rest, NoOperator [.mul, .div] rest →
      (sum (operand depth) (tokens ++ rest)).pair =
        (chain [.add, .sub] (chained [.mul, .div] (operand depth)) e rest).pair

/-- A product is read where none of its signs follows. -/
theorem Reads.pair_product (h : Reads depth tokens e .product)
    (hrest : NoOperator [.mul, .div] rest) :
    (chained [.mul, .div] (operand depth) (tokens ++ rest)).pair = (e, rest) := by
  rw [h rest, pair_chain_of_noOperator hrest]

/-- A sum is read where no sign follows. -/
theorem Reads.pair_sum (h : Reads depth tokens e .sum) (hproduct : NoOperator [.mul, .div] rest)
    (hsum : NoOperator [.add, .sub] rest) :
    (sum (operand depth) (tokens ++ rest)).pair = (e, rest) := by
  rw [h rest hproduct, pair_chain_of_noOperator hsum]

/-- **Sums, products and operands are read as their trees**, if there is depth enough. -/
theorem reads_formula {c : Category} (f : Formula c) (h : f.nesting ≤ depth) :
    Reads depth f.tokens f.tree c := by
  induction f generalizing depth with
  | leaf t value isLeaf =>
    intro rest
    cases depth <;> exact pair_operandWith_of_leaf isLeaf rest
  | group left inner right ih =>
    cases depth with
    | zero => exact absurd h (Nat.not_succ_le_zero _)
    | succ depth =>
      intro rest
      have hinner := (ih (Nat.le_of_succ_le_succ h)).pair_sum (noOperator_of_right right rest)
        (noOperator_of_right right rest)
      have hright : right.1.isParen ")" = true := right.2
      have htokens : (Formula.group left inner right).tokens ++ rest =
          left.1 :: (inner.tokens ++ right.1 :: rest) := by
        rw [Formula.tokens, List.cons_append, List.append_assoc, List.singleton_append]
      rw [htokens, operand, operandWith_of_left left.2, pair_behind, pair_andThen hinner, closed,
        if_pos hright, pair_skip]
      rfl
  | negation minus inner ih =>
    cases depth with
    | zero => exact absurd h (Nat.not_succ_le_zero _)
    | succ depth =>
      intro rest
      have hinner := ih (Nat.le_of_succ_le_succ h) rest
      rw [Formula.tokens, List.cons_append, operand, operandWith_of_minus minus.kind_lexeme,
        pair_behind, pair_map hinner]
      rfl
  | factor inner ih =>
    intro rest
    exact pair_chained_of_item (ih h rest)
  | times left sign right ihleft ihright =>
    obtain ⟨hleft, hright⟩ := Nat.max_le.mp h
    intro rest
    rw [Formula.tokens, List.append_assoc, List.cons_append, ihleft hleft]
    exact pair_chain_sign sign (ihright hright rest) left.tree
  | term inner ih =>
    intro rest hrest
    exact pair_chained_of_item ((ih h).pair_product hrest)
  | plus left sign right ihleft ihright =>
    obtain ⟨hleft, hright⟩ := Nat.max_le.mp h
    intro rest hrest
    rw [Formula.tokens, List.append_assoc, List.cons_append,
      ihleft hleft _ (noOperator_product_of_sign sign _)]
    exact pair_chain_sign sign ((ihright hright).pair_product hrest) left.tree

end Expr

/-- The grammar of expressions is not ambiguous. -/
theorem Grammar.Formula.tree_eq_of_tokens {f g : Grammar.Formula .sum} (h : f.tokens = g.tokens) :
    f.tree = g.tree := by
  have hread : ∀ f' : Grammar.Formula .sum, f'.nesting ≤ max f.nesting g.nesting →
      (Expr.expressionWithin (max f.nesting g.nesting) (f'.tokens ++ [])).pair = (f'.tree, []) := by
    intro f' hnesting
    exact (Expr.reads_formula f' hnesting).pair_sum Expr.noOperator_nil Expr.noOperator_nil
  have hf := hread f (Nat.le_max_left _ _)
  rw [h, hread g (Nat.le_max_right _ _)] at hf
  exact (congrArg Prod.fst hf).symm

/-- **Expressions are read by precedence.** An expression in which parentheses and minuses are not
nested deeper than 64 is read up to its end and no further, as the tree of its derivation, if no
sign of the arithmetic operators follows. -/
theorem pair_expression_of_formula (f : Grammar.Formula .sum) (h : f.nesting ≤ Expr.maxDepth)
    {rest : List Token} (hrest : Expr.NoSign rest) :
    (Expr.expression (f.tokens ++ rest)).pair = (f.tree, rest) :=
  (Expr.reads_formula f h).pair_sum (hrest.noOperator (by decide)) (hrest.noOperator (by decide))

/-- Two differences, with a product of a negated group between the signs. What follows would close
a parenthesis that is not open. -/
theorem pair_expression_of_formula_two_differences :
    ∃ f : Grammar.Formula .sum, f.tokens = Token.scan "x - -(y + z) * y - z" ∧
      f.nesting ≤ Expr.maxDepth ∧ Expr.NoSign (Token.scan ") * x") ∧
      (Expr.expression (f.tokens ++ Token.scan ") * x")).pair =
        (.binary .sub
          (.binary .sub (.name "x")
            (.binary .mul (.negate (.binary .add (.name "y") (.name "z"))) (.name "y")))
          (.name "z"), Token.scan ") * x") := by
  obtain ⟨f, htokens, hnesting, htree⟩ : ∃ f : Grammar.Formula .sum,
      f.tokens = Token.scan "x - -(y + z) * y - z" ∧ f.nesting ≤ Expr.maxDepth ∧
        f.tree = .binary .sub
          (.binary .sub (.name "x")
            (.binary .mul (.negate (.binary .add (.name "y") (.name "z"))) (.name "y")))
          (.name "z") := by
    refine ⟨.plus
      (.plus
        (.term (.factor (.leaf ⟨.identifier, "x", ⟨0, 1⟩⟩ (.name "x") rfl)))
        ⟨.sub, ⟨.arithmetic, "-", ⟨2, 3⟩⟩, by decide, rfl, rfl⟩
        (.times
          (.factor (.negation ⟨⟨.arithmetic, "-", ⟨4, 5⟩⟩, rfl⟩
            (.group ⟨⟨.paren, "(", ⟨5, 6⟩⟩, rfl⟩
              (.plus
                (.term (.factor (.leaf ⟨.identifier, "y", ⟨6, 7⟩⟩ (.name "y") rfl)))
                ⟨.add, ⟨.arithmetic, "+", ⟨8, 9⟩⟩, by decide, rfl, rfl⟩
                (.factor (.leaf ⟨.identifier, "z", ⟨10, 11⟩⟩ (.name "z") rfl)))
              ⟨⟨.paren, ")", ⟨11, 12⟩⟩, rfl⟩)))
          ⟨.mul, ⟨.arithmetic, "*", ⟨13, 14⟩⟩, by decide, rfl, rfl⟩
          (.leaf ⟨.identifier, "y", ⟨15, 16⟩⟩ (.name "y") rfl)))
      ⟨.sub, ⟨.arithmetic, "-", ⟨17, 18⟩⟩, by decide, rfl, rfl⟩
      (.factor (.leaf ⟨.identifier, "z", ⟨19, 20⟩⟩ (.name "z") rfl)), ?_, ?_, rfl⟩
    · decide +kernel
    · decide
  have hrest : Expr.NoSign (Token.scan ") * x") := by
    have hhead : (Token.scan ") * x").head?.map Token.isSign = some false := by decide +kernel
    intro t ts hts
    rw [hts] at hhead
    exact Option.some_inj.mp hhead
  refine ⟨f, htokens, hnesting, hrest, ?_⟩
  rw [← htree]
  exact pair_expression_of_formula f hnesting hrest

end Stepwise
