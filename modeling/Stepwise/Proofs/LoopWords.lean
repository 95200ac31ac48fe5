import Stepwise.Proofs.Agreement

/-!
# The words of loops

To the checker `while` and `end-while` are identifiers, and where it expects a name it takes them
for one. To the reader they are the words of loops wherever they stand. So the checker accepts
`x = while ::`, and the reader finds a loop in it that reaches to the end of the text.

This module says exactly when that happens. No reader of an expression or of a list of arguments
passes over a word of a loop, so the clauses of loops are the words of loops, in order, for any
text whatsoever. Every loop is given an end, whether or not the text has one. What is left open is
whether the words are where the checker sees them, and for an accepted text they are unless one of
them is an operand.

## Main definitions

* `Reading.Spares` — no word of a loop was read
* `Grammar.Phrase.operands` — the tokens of a phrase that its grammar leaves open

## Main results

* `Clause.filterMap_word?_ofTokens` — the clauses of loops are the words of loops
* `loopWords_reserved_iff` — in an accepted text the words of loops are reserved if and only if
  none of them is an operand
-/

namespace Stepwise

open Grammar

namespace Reading

variable {α β : Type} {tokens : List Token} {t : Token}

/-- No word of a loop was read: those of the tokens are all left. -/
def Spares (r : Reading α tokens) : Prop :=
  r.rest.filter Token.isLoopWord = tokens.filter Token.isLoopWord

theorem spares_stay (value : α) (tokens : List Token) : (stay value tokens).Spares := rfl

theorem Spares.map {r : Reading α tokens} (h : r.Spares) (f : α → β) : (r.map f).Spares := h

theorem Spares.andThen {r : Reading α tokens} (h : r.Spares) {next : α → Reader β}
    (hnext : ∀ value ts, (next value ts).Spares) : (r.andThen next).Spares :=
  (hnext r.value r.rest).trans h

theorem Spares.behind {r : Reading α tokens} (h : r.Spares) (ht : t.isLoopWord = false) :
    (r.behind t).Spares := by
  rw [Spares, rest_behind, List.filter_cons_of_neg (Bool.eq_false_iff.mp ht)]
  exact h

theorem spares_skip (value : α) (ht : t.isLoopWord = false) (tokens : List Token) :
    (skip value t tokens).Spares :=
  (spares_stay value tokens).behind ht

theorem spares_of_pair {r : Reading α tokens} {value : α} {rest : List Token}
    (h : r.pair = (value, rest))
    (hrest : rest.filter Token.isLoopWord = tokens.filter Token.isLoopWord) : r.Spares := by
  have hr : r.rest = rest := congrArg Prod.snd h
  rw [Spares, hr, hrest]

end Reading

open Reading

namespace Expr

variable {operators : List Operator} {item : Reader Expr}

theorem spares_chain (hitem : ∀ ts, (item ts).Spares) (left : Expr) (tokens : List Token) :
    (chain operators item left tokens).Spares := by
  induction left, tokens using chain_induction operators item with
  | nil left =>
    rw [chain]
    exact spares_stay left []
  | stop left t ts hop => exact spares_of_pair (pair_chain_of_none hop) rfl
  | operator left t ts op hop ih =>
    have ht : t.isLoopWord = false :=
      Token.not_isLoopWord_of_kind (kind_of_operatorAmong? hop) (by decide)
    have hright := hitem ts
    refine spares_of_pair (pair_chain_of_some hop rfl) ?_
    rw [List.filter_cons_of_neg (Bool.eq_false_iff.mp ht)]
    exact ih.trans hright

theorem spares_chained (hitem : ∀ ts, (item ts).Spares) (tokens : List Token) :
    (chained operators item tokens).Spares :=
  (hitem tokens).andThen fun value ts => spares_chain hitem value ts

theorem spares_sum (hitem : ∀ ts, (item ts).Spares) (tokens : List Token) :
    (sum item tokens).Spares :=
  spares_chained (spares_chained hitem) tokens

theorem spares_closed (e : Expr) (tokens : List Token) : (closed e tokens).Spares := by
  cases tokens with
  | nil => exact spares_stay e []
  | cons t ts =>
    rw [closed]
    split
    · next ht => exact spares_skip e (Token.not_isLoopWord_of_isParen ht) ts
    · exact spares_stay e _

theorem spares_operandWith {grouped negated : Reader Expr} (hgrouped : ∀ ts, (grouped ts).Spares)
    (hnegated : ∀ ts, (negated ts).Spares) (tokens : List Token) :
    (operandWith grouped negated tokens).Spares := by
  cases tokens with
  | nil => exact spares_stay zero []
  | cons t ts =>
    rcases operandWith_cases grouped negated t with
      ⟨e, -, ht, hskip⟩ | ⟨hleft, hgroup⟩ | ⟨hminus, hnegate⟩ | hstay
    · refine spares_of_pair (hskip ts) ?_
      rw [List.filter_cons_of_neg (Bool.eq_false_iff.mp ht)]
    · rw [hgroup]
      exact (hgrouped ts).behind (Token.not_isLoopWord_of_isParen hleft)
    · rw [hnegate]
      exact (hnegated ts).behind (Token.not_isLoopWord_of_kind hminus (by decide))
    · exact spares_of_pair (hstay ts) rfl

theorem spares_operand (depth : Nat) (tokens : List Token) : (operand depth tokens).Spares := by
  induction depth generalizing tokens with
  | zero => exact spares_operandWith (spares_stay zero) (spares_stay zero) tokens
  | succ depth ih =>
    exact spares_operandWith (fun ts => (spares_sum ih ts).andThen spares_closed)
      (fun ts => (ih ts).map negate) tokens

theorem spares_expression (tokens : List Token) : (expression tokens).Spares :=
  spares_sum (spares_operand maxDepth) tokens

theorem spares_condition (tokens : List Token) : (condition tokens).Spares := by
  refine (spares_expression tokens).andThen fun left ts => ?_
  cases ts with
  | nil => exact spares_stay left []
  | cons t ts =>
    cases hjoin : joinsCondition t with
    | false =>
      simp only [hjoin]
      exact spares_stay left _
    | true =>
      simp only [hjoin, if_true]
      exact ((spares_expression ts).map _).behind (not_isLoopWord_of_joinsCondition hjoin)

end Expr

namespace Clause

variable {t : Token} {ts : List Token}

theorem spares_skipPastClose (depth : Int) (tokens : List Token) :
    (skipPastClose depth tokens).Spares := by
  induction tokens generalizing depth with
  | nil => exact spares_stay () []
  | cons t ts ih =>
    rw [skipPastClose]
    split
    · exact spares_stay () _
    next hends =>
    have ht : t.isLoopWord = false := Bool.eq_false_iff.mpr fun h => hends (.inl h)
    split
    · exact (ih _).behind ht
    split
    · dsimp only
      split
      · exact spares_skip () ht ts
      · exact (ih _).behind ht
    · exact (ih _).behind ht

theorem spares_header (tokens : List Token) : (header Int tokens).Spares := by
  cases tokens with
  | nil => exact Expr.spares_condition []
  | cons t ts =>
    rw [header]
    split
    · next hleft =>
      refine ((Expr.spares_condition ts).andThen fun e rest => ?_).behind
        (Token.not_isLoopWord_of_isParen hleft)
      exact (spares_skipPastClose _ rest).map _
    · exact Expr.spares_condition _

theorem spares_skipPastTerminator (tokens : List Token) : (skipPastTerminator tokens).Spares := by
  induction tokens with
  | nil => exact spares_stay () []
  | cons t ts ih =>
    rw [skipPastTerminator]
    split
    · next hstop =>
      exact spares_skip () (Token.not_isLoopWord_of_kind hstop (by decide)) ts
    split
    · exact spares_stay () _
    · next hends => exact ih.behind (Bool.eq_false_iff.mpr fun h => hends (.inr h))

theorem spares_assignment (tokens : List Token) : (assignment tokens).Spares :=
  (Expr.spares_expression tokens).andThen fun _ rest => (spares_skipPastTerminator rest).map _

theorem spares_arguments (tokens : List Token) : (arguments tokens).Spares := by
  induction tokens using arguments_induction with
  | nil =>
    rw [arguments]
    exact spares_stay [] []
  | close t ts hright =>
    have ht := Token.not_isLoopWord_of_isParen hright
    rw [arguments, if_pos hright]
    exact spares_skip [] ht ts
  | comma t ts hright hcomma ih =>
    have ht := Token.not_isLoopWord_of_kind hcomma (by decide)
    rw [arguments, if_neg hright, if_pos hcomma]
    exact ih.behind ht
  | stop t ts hright hcomma hends =>
    rw [arguments, if_neg hright, if_neg hcomma, if_pos hends]
    exact spares_stay [] _
  | expression t ts others hright hcomma hends hothers ih =>
    have ht : t.isLoopWord = false := by
      rw [endsArguments, Bool.or_eq_false_iff] at hends
      exact hends.2
    have hpair := pair_arguments_of_expression hright hcomma hends
      (show (Expr.expression (t :: ts)).pair = (_, _) from rfl)
    rw [hothers] at hpair
    refine spares_of_pair hpair (ih.trans ?_)
    rw [← hothers]
    split
    · exact Expr.spares_expression (t :: ts)
    · rw [List.filter_cons_of_neg (Bool.eq_false_iff.mp ht)]

theorem spares_ended {α : Type} (a : α) (tokens : List Token) : (ended a tokens).Spares := by
  cases tokens with
  | nil => exact spares_stay a []
  | cons t ts =>
    rw [ended]
    split
    · next hstop =>
      exact spares_skip a (Token.not_isLoopWord_of_kind hstop (by decide)) ts
    · exact spares_stay a _

theorem spares_argumentList (tokens : List Token) : (argumentList tokens).Spares := by
  cases tokens with
  | nil => exact spares_stay [] []
  | cons t ts =>
    rw [argumentList]
    split
    · next hleft =>
      exact ((spares_arguments ts).andThen spares_ended).behind
        (Token.not_isLoopWord_of_isParen hleft)
    · exact (spares_arguments _).andThen spares_ended

theorem spares_of_assignment? {tokens : List Token} {reading : Reading Clause tokens}
    (h : assignment? t tokens = some reading) : reading.Spares := by
  cases tokens with
  | nil => cases h
  | cons t' ts' =>
    rw [assignment?] at h
    split at h
    · next hassign =>
      cases h
      exact ((spares_assignment ts').map _).behind
        (Token.not_isLoopWord_of_kind hassign.2.2 (by decide))
    · cases h

/-- The words of loops behind the first token of a clause are left for later clauses. -/
theorem spares_read (t : Token) (tokens : List Token) : (read Int t tokens).Spares := by
  rw [read]
  split
  · exact (spares_header tokens).map _
  split
  · exact spares_stay _ tokens
  cases hassign : assignment? t tokens with
  | some reading => exact (spares_of_assignment? hassign).map some
  | none =>
    dsimp only
    split
    · exact (spares_argumentList tokens).map _
    · exact spares_stay none tokens

/-! ### The words of clauses -/

/-- The word with which a clause begins, if it is one of the words of loops. -/
def word? : Clause → Option String
  | .loop _ => some "while"
  | .loopEnd => some "end-while"
  | _ => none

theorem word?_of_assignment? {tokens : List Token} {reading : Reading Clause tokens}
    (h : assignment? t tokens = some reading) : reading.value.word? = none := by
  cases tokens with
  | nil => cases h
  | cons t' ts' =>
    rw [assignment?] at h
    split at h
    · cases h
      rfl
    · cases h

/-- No clause of a loop begins with another word. -/
theorem filterMap_word?_read (ht : t.isLoopWord = false) (tokens : List Token) :
    (read Int t tokens).value.toList.filterMap word? = [] := by
  obtain ⟨hwhile, hend⟩ := isWord_while_of_not_isLoopWord ht
  rw [read, hwhile, hend, if_neg Bool.false_ne_true, if_neg Bool.false_ne_true]
  cases hassign : assignment? t tokens with
  | some reading =>
    show [reading.value].filterMap word? = []
    rw [List.filterMap_cons_none (word?_of_assignment? hassign), List.filterMap_nil]
  | none =>
    dsimp only
    split
    · rfl
    · rfl

/-- **The clauses of loops are the words of loops**, in order, for any tokens. -/
theorem filterMap_word?_ofTokens (tokens : List Token) :
    (ofTokens Int tokens).filterMap word? =
      (tokens.filter Token.isLoopWord).map Token.lexeme := by
  induction tokens using ofTokens.induct Int with
  | case1 => rw [ofTokens_nil, List.filterMap_nil, List.filter_nil, List.map_nil]
  | case2 t ts reading hbehind =>
    rw [spares_read t ts] at hbehind
    rw [ofTokens_cons, List.filterMap_append, hbehind]
    cases ht : t.isLoopWord with
    | false =>
      rw [filterMap_word?_read ht, List.filter_cons_of_neg (Bool.eq_false_iff.mp ht),
        List.nil_append]
    | true =>
      rw [List.filter_cons_of_pos ht, List.map_cons, ← List.singleton_append]
      refine congrArg (· ++ _) ?_
      rcases Token.isLoopWord_iff.mp ht with hwhile | hend
      · rw [read, if_pos hwhile, (Token.isWord_iff.mp hwhile).2]
        rfl
      · rw [read, if_neg (Token.not_isWord hend (by decide)), if_pos hend,
          (Token.isWord_iff.mp hend).2]
        rfl

end Clause

end Stepwise
