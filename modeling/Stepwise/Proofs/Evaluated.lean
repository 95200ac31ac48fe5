import Stepwise.Proofs.Agreement
import Stepwise.Proofs.Operands
import Mathlib.Data.List.Forall2

/-!
# Which operands a program evaluates

Not every operand of an accepted statement is evaluated. The checker takes a run of tokens for what
it is and does not ask for more than balanced parentheses. The reader takes one expression from the
run, in the head of a loop two with a relation or a logic word between them, and passes over what is
left. So `while (a and b and c)` does not look at `c`, and `x = 1 2 ::` is `x = 1 ::`.

What is evaluated is what the scan of the operands passes. In the arguments of `write` the scan
begins anew wherever it stops, until it comes to a parenthesis that closes nothing. In a condition
it begins anew once, behind the token that joins the two sides, and where that token is `not` the
condition is zero and none of its operands is in it.

## Main definitions

* `Place.conditionOperands`, `Place.argumentOperands` — the operands that are passed in a condition
  and in the arguments of `write`
* `Grammar.Phrase.evaluated` — the operands of a phrase that are evaluated

## Main results

* `exists_evaluates` — the instructions of an accepted text have those operands, in order, and
  zeros
* `not_all_operands_evaluated` — an accepted text with an operand that is not evaluated
-/

namespace Stepwise

open Grammar Reading

/-! ### Conditions and arguments -/

namespace Place

/-- The operands that the scan passes in a condition. -/
def conditionOperands (tokens : List Token) : List Expr :=
  let front := (start Expr.maxDepth).operands tokens
  match (start Expr.maxDepth).rest tokens with
  | [] => front
  | t :: ts =>
    if Expr.joinsCondition t then
      if (Operator.ofLexeme? t.lexeme).isSome then front ++ (start Expr.maxDepth).operands ts
      else []
    else front

/-- The operands that the scan passes in arguments. Where it passes nothing, it begins anew behind
the token that is in the way. -/
def argumentOperands : List Token → List Expr
  | [] => []
  | t :: ts =>
    if t.isParen ")" ∨ Clause.endsArguments t then []
    else
      let rest := (start Expr.maxDepth).rest (t :: ts)
      if rest.length ≤ ts.length then
        (start Expr.maxDepth).operands (t :: ts) ++ argumentOperands rest
      else (start Expr.maxDepth).operands (t :: ts) ++ argumentOperands ts
termination_by tokens => tokens.length
decreasing_by
  · have hle : ((start Expr.maxDepth).rest (t :: ts)).length ≤ ts.length := ‹_›
    simp only [List.length_cons]
    omega
  · simp only [List.length_cons]
    omega

variable {t : Token} {ts : List Token}

@[simp] theorem argumentOperands_nil : argumentOperands [] = [] := by rw [argumentOperands]

theorem argumentOperands_of_stop (h : t.isParen ")" = true ∨ Clause.endsArguments t = true)
    (ts : List Token) : argumentOperands (t :: ts) = [] := by
  rw [argumentOperands, if_pos h]

theorem argumentOperands_cons (h : ¬ (t.isParen ")" = true ∨ Clause.endsArguments t = true))
    (ts : List Token) :
    argumentOperands (t :: ts) = (start Expr.maxDepth).operands (t :: ts) ++
      argumentOperands (if ((start Expr.maxDepth).rest (t :: ts)).length ≤ ts.length then
        (start Expr.maxDepth).rest (t :: ts) else ts) := by
  rw [argumentOperands, if_neg h]
  split
  · rename_i hle
    exact if_pos hle
  · rename_i hle
    exact if_neg hle

theorem argumentOperands_of_comma (h : t.kind = .comma) (ts : List Token) :
    argumentOperands (t :: ts) = argumentOperands ts := by
  have hright : ¬ t.isParen ")" = true := fun hright => by
    rw [(Token.isParen_iff.mp hright).1] at h
    cases h
  have hends : Clause.endsArguments t = false := by
    rw [Clause.endsArguments, h, Token.not_isLoopWord_of_kind h (by decide)]
    rfl
  have hnext : (start Expr.maxDepth).next t = none := by
    have hleaf : t.leaf? = none := by rw [Token.leaf?, h]
    have hsign : t.isSign = false := by
      rw [Token.isSign, h]
      rfl
    have hleft : t.isParen "(" = false := by
      rw [Token.isParen, h]
      rfl
    simp only [start, next, hleaf, hleft, h, reduceCtorEq, Option.isSome_none, Bool.false_eq_true,
      if_false, false_and]
    exact afterOperand_eq_none hright hsign _
  have hgoes : ¬ (t.isParen ")" = true ∨ Clause.endsArguments t = true) := by
    rw [hends]
    exact fun h => h.elim hright Bool.false_ne_true
  rw [argumentOperands_cons hgoes, operands_of_none hnext, rest_of_none hnext, List.nil_append,
    if_neg (show ¬ (t :: ts).length ≤ ts.length from Nat.not_succ_le_self _)]

/-! Only operands of the statement are passed, from the first on. -/

theorem operands_front (p : Place) (ts : List Token) :
    p.operands ts <+: ts.filterMap Token.leaf? :=
  ⟨_, (p.filterMap_leaf?_eq ts).symm⟩

theorem append_front {p : Place} {es : List Expr}
    (h : es <+: (p.rest ts).filterMap Token.leaf?) :
    p.operands ts ++ es <+: ts.filterMap Token.leaf? := by
  rw [p.filterMap_leaf?_eq ts]
  exact (List.prefix_append_right_inj _).mpr h

theorem leaf?_eq_none_of_next {d : Nat} (h : (start d).next t = none) : t.leaf? = none := by
  cases hleaf : t.leaf? with
  | none => rfl
  | some e =>
    simp only [start, next, hleaf, Option.isSome_some, if_true] at h
    cases h

theorem leaf?_of_joinsCondition (h : Expr.joinsCondition t = true) : t.leaf? = none := by
  cases hk : t.kind with
  | relation | logic | assign => rw [Token.leaf?, hk]
  | _ =>
    rw [Expr.joinsCondition, hk] at h
    cases h

theorem conditionOperands_front (tokens : List Token) :
    conditionOperands tokens <+: tokens.filterMap Token.leaf? := by
  unfold conditionOperands
  split
  case h_1 => exact operands_front ..
  case h_2 t ts hrest =>
    split
    · split
      · refine append_front ?_
        rw [hrest, List.filterMap_cons, leaf?_of_joinsCondition ‹_›]
        exact operands_front ..
      · exact List.nil_prefix
    · exact operands_front ..

theorem argumentOperands_front (tokens : List Token) :
    argumentOperands tokens <+: tokens.filterMap Token.leaf? := by
  induction hn : tokens.length using Nat.strongRecOn generalizing tokens with
  | ind n ih =>
    subst hn
    cases tokens with
    | nil =>
      rw [argumentOperands_nil]
      exact List.nil_prefix
    | cons t ts =>
      by_cases hstop : t.isParen ")" = true ∨ Clause.endsArguments t = true
      · rw [argumentOperands_of_stop hstop]
        exact List.nil_prefix
      rw [argumentOperands_cons hstop]
      refine append_front ?_
      split
      case isTrue hle => exact ih _ (Nat.lt_succ_of_le hle) _ rfl
      case isFalse hle =>
        -- The scan has not passed the token in front, so it is no operand.
        cases hnext : (start Expr.maxDepth).next t with
        | none =>
          rw [rest_of_none hnext, List.filterMap_cons, leaf?_eq_none_of_next hnext]
          exact ih _ (Nat.lt_succ_self _) _ rfl
        | some q =>
          rw [rest_of_some hnext] at hle
          exact absurd (q.rest_suffix ts).length_le hle

end Place

namespace Expr

theorem pair_expression (tokens : List Token) :
    (expression tokens).pair =
      ((expression tokens).value, (Place.start maxDepth).rest tokens) := by
  rw [pair, (takes_expression tokens).2]

/-- The operands of a condition are those that the scan passes, and zeros. -/
theorem padded_condition (tokens : List Token) :
    Padded (Place.conditionOperands tokens) (condition tokens).value.leaves := by
  have hfront := (takes_expression tokens).1
  show Padded _ (condition tokens).pair.1.leaves
  rw [condition, pair_andThen (pair_expression tokens), Place.conditionOperands]
  cases (Place.start maxDepth).rest tokens with
  | nil => exact hfront
  | cons t ts =>
    simp only
    cases hjoin : joinsCondition t with
    | false => exact hfront
    | true =>
      cases hop : Operator.ofLexeme? t.lexeme with
      | none => exact .zero .nil
      | some op => exact hfront.append (takes_expression ts).1

end Expr

namespace Clause

/-- The operands in a clause, from left to right. -/
def leaves : Clause → List Expr
  | .loop condition => condition.leaves
  | .loopEnd => []
  | .assign _ value => value.leaves
  | .write args => args.flatMap Expr.leaves

/-- The operands of arguments are those that the scan passes, and zeros. -/
theorem padded_arguments (tokens : List Token) :
    Padded (Place.argumentOperands tokens) ((arguments tokens).value.flatMap Expr.leaves) := by
  induction tokens using arguments_induction with
  | nil =>
    rw [Place.argumentOperands_nil, arguments]
    exact .nil
  | close t ts hright =>
    rw [Place.argumentOperands_of_stop (.inl hright), arguments, if_pos hright]
    exact .nil
  | comma t ts hright hcomma ih =>
    have hvalue := congrArg Prod.fst (show (arguments (t :: ts)).pair = (arguments ts).pair from
      pair_arguments_of_comma hcomma)
    show Padded _ ((arguments (t :: ts)).pair.1.flatMap Expr.leaves)
    rw [hvalue, Place.argumentOperands_of_comma hcomma]
    exact ih
  | stop t ts hright hcomma hends =>
    rw [Place.argumentOperands_of_stop (.inr hends), arguments, if_neg hright, if_neg hcomma,
      if_pos hends]
    exact .nil
  | expression t ts others hright hcomma hends hothers ih =>
    have hexpression := Expr.pair_expression (t :: ts)
    have hrest : (Expr.expression (t :: ts)).rest = (Place.start Expr.maxDepth).rest (t :: ts) :=
      congrArg Prod.snd hexpression
    have hvalue := congrArg Prod.fst
      (pair_arguments_of_expression hright hcomma hends hexpression)
    have hgoes : ¬ (t.isParen ")" = true ∨ endsArguments t = true) := by
      rw [hends]
      exact fun h => h.elim hright Bool.false_ne_true
    rw [hrest] at hothers
    show Padded _ ((arguments (t :: ts)).pair.1.flatMap Expr.leaves)
    rw [hvalue, Place.argumentOperands_cons hgoes, hothers]
    exact (Expr.takes_expression (t :: ts)).1.append ih

end Clause

/-! ### Statements -/

namespace Grammar.Phrase

/-- Whether a phrase becomes an instruction. -/
def acts : Phrase → Bool
  | assignment .. | write .. | loop .. | loopEnd _ => true
  | empty _ | capture .. | conditional .. | conditionalEnd _ => false

/-- The numbers, names and texts of a phrase behind its first token. -/
def operandLeaves (p : Phrase) : List Expr := p.tail.filterMap Token.leaf?

/-- Those of them that are evaluated. -/
def evaluated : Phrase → List Expr
  | assignment _ _ value stop => (Place.start Expr.maxDepth).operands (value.tokens ++ [stop.1])
  | write _ _ text further right _ =>
    text.1.leaf?.toList ++ Place.argumentOperands (furtherTokens further ++ [right.1])
  | loop _ _ condition right => Place.conditionOperands (condition.tokens ++ [right.1])
  | _ => []

theorem isSome_clause? (p : Phrase) : p.clause?.isSome = p.acts := by cases p <;> rfl

theorem leaf?_of_string (text : Terminal (.kind .string)) :
    text.1.leaf? = some (.text (Expr.unquote text.1.lexeme)) := by
  rw [Token.leaf?, text.kind_eq]

theorem padded_evaluated {p : Phrase} {c : Clause} (h : p.clause? = some c) :
    Padded p.evaluated c.leaves := by
  cases p with
  | assignment target sign value stop =>
    cases h
    exact (Expr.takes_expression _).1
  | write word left text further right stop =>
    cases h
    rw [evaluated, leaf?_of_string text]
    exact (Clause.padded_arguments _).keep _
  | loop word left condition right =>
    cases h
    exact Expr.padded_condition _
  | loopEnd word =>
    cases h
    exact .nil
  | empty | capture | conditional | conditionalEnd => cases h

/-- The operands of a phrase that are evaluated are the first ones. -/
theorem evaluated_front (p : Phrase) : p.evaluated <+: p.operandLeaves := by
  have hleft : ∀ left : Left, left.1.leaf? = none := fun left =>
    Token.leaf?_of_paren left.kind_lexeme.1
  cases p with
  | assignment target sign value stop =>
    have hsign : sign.1.leaf? = none := by rw [Token.leaf?, sign.kind_eq]
    rw [evaluated, operandLeaves, tail, List.filterMap_cons, hsign]
    exact Place.operands_front ..
  | loop word left condition right =>
    rw [evaluated, operandLeaves, tail, List.filterMap_cons, hleft]
    exact Place.conditionOperands_front _
  | write word left text further right stop =>
    have htail : tail (.write word left text further right stop) =
        left.1 :: text.1 :: ((furtherTokens further ++ [right.1]) ++ [stop.1]) := by
      simp [tail]
    have hfront := (Place.argumentOperands_front (furtherTokens further ++ [right.1])).trans
      ((List.prefix_append _ [stop.1]).filterMap Token.leaf?)
    rw [evaluated, operandLeaves, htail, List.filterMap_cons_none (hleft left),
      List.filterMap_cons_some (leaf?_of_string text), leaf?_of_string text]
    exact List.cons_prefix_cons.mpr ⟨rfl, hfront⟩
  | empty | capture | conditional | conditionalEnd | loopEnd => exact List.nil_prefix

end Grammar.Phrase

/-- An instruction has the operands of a phrase that are passed, in order, and zeros. They are the
first operands of the phrase. -/
structure Evaluates (p : Phrase) (i : Instruction) : Prop where
  padded : Padded p.evaluated i.clause.leaves
  front : p.evaluated <+: p.operandLeaves

/-- The phrases that become instructions, each with its clause. -/
theorem Grammar.forall₂_clauses (phrases : List Phrase) :
    List.Forall₂ (fun p c => p.clause? = some c) (phrases.filter Phrase.acts)
      (clauses phrases) := by
  induction phrases with
  | nil => exact .nil
  | cons p phrases ih =>
    have hacts := p.isSome_clause?
    cases h : p.clause? with
    | none =>
      rw [h] at hacts
      rw [clauses_cons_of_none h, List.filter_cons_of_neg (by rw [← hacts]; decide)]
      exact ih
    | some c =>
      rw [h] at hacts
      rw [clauses_cons_of_some h, List.filter_cons_of_pos (by rw [← hacts]; rfl)]
      exact .cons h ih

/-- **What an accepted text evaluates.** Where the words of loops lead, each loop, assignment and
`write` has its instruction, and the operands in it are those that the scan passes, in order, with
zeros among them. -/
theorem exists_evaluates {text : String} (h : accepts (Token.scan text) = true)
    (hlead : Check.LoopWordsLead (Token.scan text)) :
    ∃ phrases, Nested phrases ∧ Check.segments [] (Token.scan text) = phrases.map Phrase.tokens ∧
      List.Forall₂ Evaluates (phrases.filter Phrase.acts) (Program.ofTokens (Token.scan text)) := by
  obtain ⟨phrases, hnested, hflat, hsegments, hc⟩ := Check.exists_phrases_of_accepts h
  have hloop : ∀ p ∈ phrases, ∀ t ∈ p.tail, t.isLoopWord = false := by
    intro p hp t ht
    refine hlead p.tokens ?_ t ht
    rw [hsegments]
    exact List.mem_map_of_mem hp
  have hinstructions := (agreement_of_nested hnested hc hloop).instructions
  rw [hflat] at hinstructions
  have hclauses := forall₂_clauses phrases
  rw [← hinstructions, List.forall₂_map_right_iff] at hclauses
  exact ⟨phrases, hnested, hsegments, hclauses.imp fun p i hp =>
    ⟨Phrase.padded_evaluated hp, p.evaluated_front⟩⟩

/-- A right side with an operand too many, in a loop with more parentheses than it needs. -/
theorem exists_evaluates_two_numbers :
    ∃ phrases, Nested phrases ∧
      Check.segments []
          (Token.scan "while ((x) < (1)) x = 1 2 :: write(\"a\", -(x), 3) :: end-while") =
        phrases.map Phrase.tokens ∧
      List.Forall₂ Evaluates (phrases.filter Phrase.acts)
        (Program.ofTokens
          (Token.scan "while ((x) < (1)) x = 1 2 :: write(\"a\", -(x), 3) :: end-while")) :=
  exists_evaluates (by decide +kernel) (by decide +kernel)

/-- **Not every operand is evaluated.** The third operand of this condition is in no instruction. -/
theorem not_all_operands_evaluated :
    accepts (Token.scan "while (a and b and c) end-while") = true ∧
      Check.LoopWordsLead (Token.scan "while (a and b and c) end-while") ∧
      ∀ phrases : List Phrase,
        Check.segments [] (Token.scan "while (a and b and c) end-while") =
          phrases.map Phrase.tokens →
        ¬ List.Forall₂ (fun p i => p.operandLeaves.Sublist i.clause.leaves)
          (phrases.filter Phrase.acts)
          (Program.ofTokens (Token.scan "while (a and b and c) end-while")) := by
  refine ⟨by decide +kernel, by decide +kernel, fun phrases hsegments hkept => ?_⟩
  have hprogram : Program.ofTokens (Token.scan "while (a and b and c) end-while") =
      [.loop (.binary .and (.name "a") (.name "b")) 1, .loopEnd] := by
    decide +kernel
  have hoperands : phrases.map Phrase.operandLeaves =
      [[.name "a", .name "b", .name "c"], []] := by
    have htails : (phrases.map Phrase.tokens).map (fun s => s.tail.filterMap Token.leaf?) =
        [[.name "a", .name "b", .name "c"], []] := by
      rw [← hsegments]
      decide +kernel
    rwa [List.map_map] at htails
  rw [hprogram] at hkept
  -- Both phrases have an instruction, as there are two instructions.
  have hlength : (phrases.filter Phrase.acts).length = phrases.length := by
    have hphrases := congrArg List.length hoperands
    rw [List.length_map] at hphrases
    rw [hkept.length_eq, hphrases]
    rfl
  rw [List.filter_eq_self.mpr (List.length_filter_eq_length_iff.mp hlength)] at hkept
  cases hkept with
  | cons hfirst _ =>
    rw [List.map_cons, List.cons.injEq] at hoperands
    rw [hoperands.1] at hfirst
    exact absurd hfirst (by decide)

end Stepwise
