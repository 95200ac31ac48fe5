import Stepwise.Proofs.Leftovers

/-!
# The clauses of phrases

In each phrase the reader finds the clause that the phrase is meant to be, and nothing else. It
needs no more than the tokens of the phrase for that, and what it leaves of them is inert.

This needs that the words of loops stand only at the head of a phrase. Everywhere else the reader
takes them for the head or the end of a loop.

## Main definitions

* `Grammar.Phrase.clause?` — the clause that a phrase is meant to be

## Main results

* `Clause.ofTokens_phrase` — the clause of a phrase is what is read from its tokens, whatever
  follows
* `Clause.ofTokens_flatMap_append`, `Clause.ofTokens_flatMap` — the clauses of a list of phrases,
  in front of other tokens and alone
-/

namespace Stepwise

open Grammar Reading

/-- The clause that a phrase is meant to be. Its expressions are read from the tokens of the phrase
alone. -/
def Grammar.Phrase.clause? : Phrase → Option Clause
  | .assignment target _ value stop =>
    some (.assign target.1.lexeme (Expr.expression (value.tokens ++ [stop.1])).value)
  | .write _ _ text further right _ =>
    some (.write (.text (Expr.unquote text.1.lexeme) ::
      (Clause.arguments (Phrase.furtherTokens further ++ [right.1])).value))
  | .loop _ _ condition right => some (.loop (Expr.condition (condition.tokens ++ [right.1])).value)
  | .loopEnd _ => some .loopEnd
  | _ => none

namespace Grammar

/-- The clauses of phrases. -/
def clauses (phrases : List Phrase) : List Clause := phrases.filterMap Phrase.clause?

variable {p : Phrase} {phrases : List Phrase}

theorem clauses_cons_of_none (h : p.clause? = none) : clauses (p :: phrases) = clauses phrases :=
  List.filterMap_cons_none h

theorem clauses_cons_of_some {c : Clause} (h : p.clause? = some c) :
    clauses (p :: phrases) = c :: clauses phrases :=
  List.filterMap_cons_some h

theorem clauses_append (phrases phrases' : List Phrase) :
    clauses (phrases ++ phrases') = clauses phrases ++ clauses phrases' :=
  List.filterMap_append

end Grammar

namespace Clause

variable {t : Token} {rest : List Token} {kinds : List Token.Kind}

/-! ### Tokens of phrases -/

theorem isQuiet_of_kind (hc : t.IsClassified) (hloop : t.isLoopWord = false)
    (hkeyword : t.kind ≠ .keyword) (hsign : t.kind ≠ .assign) : IsQuiet t := by
  refine ⟨hloop, Bool.eq_false_iff.mpr fun hwrite => hkeyword ?_, hsign⟩
  exact (hc.kind_of_isWord hwrite).trans (by decide)

theorem isQuiet_of_mem (run : Run kinds) (hc : ∀ t ∈ run.tokens, t.IsClassified)
    (hloop : ∀ t ∈ run.tokens, t.isLoopWord = false) (hkeyword : Token.Kind.keyword ∉ kinds)
    (hsign : Token.Kind.assign ∉ kinds) : ∀ t ∈ run.tokens, IsQuiet t := by
  intro t ht
  exact isQuiet_of_kind (hc t ht) (hloop t ht) (run.kind_ne ht hkeyword (by decide))
    (run.kind_ne ht hsign (by decide))

theorem isInner_of_mem (run : Run kinds) (hloop : ∀ t ∈ run.tokens, t.isLoopWord = false)
    (hkeyword : Token.Kind.keyword ∉ kinds) (hstop : Token.Kind.terminator ∉ kinds) :
    ∀ t ∈ run.tokens, IsInner t := by
  intro t ht
  exact ⟨hloop t ht, run.kind_ne ht hstop (by decide),
    run.kind_ne ht hkeyword (by decide)⟩

theorem isQuiet_of_not_word {k : Token.Kind} (h : t.kind = k)
    (hword : k ≠ .keyword ∧ k ≠ .identifier) (hsign : k ≠ .assign) : IsQuiet t :=
  ⟨Token.not_isLoopWord_of_kind h hword, Token.not_isWord_of_kind h hword, ne_of_eq_of_ne h hsign⟩

theorem isQuiet_of_paren {text : String} (h : t.isParen text = true) : IsQuiet t :=
  isQuiet_of_not_word (Token.isParen_iff.mp h).1 (by decide) (by decide)

theorem isQuiet_of_stop (stop : Stop) : IsQuiet stop.1 :=
  isQuiet_of_not_word stop.kind_eq (by decide) (by decide)

theorem not_isLoopWord_of_word {text : String} (word : Word text)
    (h : text ∉ ["while", "end-while"]) : word.1.isLoopWord = false := by
  simp only [List.mem_cons, List.not_mem_nil, or_false, not_or] at h
  refine Bool.eq_false_iff.mpr fun hloop => ?_
  rcases Token.isLoopWord_iff.mp hloop with hwhile | hend
  · exact h.1 (word.kind_lexeme.2.symm.trans (Token.isWord_iff.mp hwhile).2)
  · exact h.2 (word.kind_lexeme.2.symm.trans (Token.isWord_iff.mp hend).2)

theorem isQuiet_of_word {text : String} (word : Word text) (h : text ∉ ["while", "end-while"])
    (hwrite : text ≠ "write") : IsQuiet word.1 := by
  refine ⟨not_isLoopWord_of_word word h, Bool.eq_false_iff.mpr fun hword => hwrite ?_, ?_⟩
  · exact word.kind_lexeme.2.symm.trans (Token.isWord_iff.mp hword).2
  · exact ne_of_eq_of_ne word.kind_lexeme.1 (by decide)

/-! ### Clauses -/

/-- The head of a loop is read from its own tokens, and what is left of them is inert. -/
theorem pair_header (left : Left) (run : Run conditionKinds) (right : Right)
    (hc : ∀ t ∈ run.tokens, t.IsClassified) (hloop : ∀ t ∈ run.tokens, t.isLoopWord = false) :
    ∃ behind, Inert behind ∧ ∀ rest,
      (header Int (left.1 :: (run.tokens ++ right.1 :: rest))).pair =
        ((Expr.condition (run.tokens ++ [right.1])).value, behind ++ rest) := by
  have hbalanced := run.balanced.excess_eq
  obtain ⟨value, read, remains, hsplit, hread, hcondition⟩ :=
    Expr.stopsAt_condition (.inr right.2) run.tokens (by rw [hbalanced]; decide)
  have hremains : ∀ t ∈ remains, t.isLoopWord = false ∧ t.kind ≠ .terminator := by
    intro t ht
    have hmem : t ∈ run.tokens := by
      rw [hsplit]
      exact List.mem_append_right _ ht
    exact ⟨hloop t hmem, run.kind_ne hmem (by decide) (by decide)⟩
  have hexcess : (Depth.one : Int) + Token.excess remains ≤ 1 := by
    rw [hsplit, Token.excess_append] at hbalanced
    rw [Depth.one_int]
    omega
  obtain ⟨behind, hsuffix, hskip⟩ := pair_skipPastClose hremains right.2 (by decide) hexcess
  have hinert : Inert (run.tokens ++ [right.1]) :=
    inert_append_singleton (isQuiet_of_mem run hc hloop (by decide) (by decide))
      (isQuiet_of_paren right.2) (ne_of_eq_of_ne right.kind_lexeme.1 (by decide))
  refine ⟨behind, hinert.of_suffix (hsuffix.trans ?_), fun rest => ?_⟩
  · rw [hsplit, List.append_assoc]
    exact List.suffix_append ..
  · have hvalue : (Expr.condition (run.tokens ++ [right.1])).value = value :=
      congrArg Prod.fst (hcondition [])
    rw [header, if_pos (show left.1.isParen "(" = true from left.2), pair_behind,
      pair_andThen (hcondition rest), pair_map (hskip rest), hvalue]

/-- An assignment is read to its end. -/
theorem pair_assignment (run : Run valueKinds) (stop : Stop)
    (hloop : ∀ t ∈ run.tokens, t.isLoopWord = false) (rest : List Token) :
    (assignment (run.tokens ++ stop.1 :: rest)).pair =
      ((Expr.expression (run.tokens ++ [stop.1])).value, rest) := by
  have hstop : stop.1.kind = .terminator := stop.kind_eq
  obtain ⟨value, read, remains, hsplit, hread, hexpression⟩ :=
    Expr.stopsAt_expression (.inl hstop) run.tokens (by rw [run.balanced.excess_eq]; decide)
  have hremains : ∀ t ∈ remains, IsInner t := by
    intro t ht
    refine isInner_of_mem run hloop (by decide) (by decide) t ?_
    rw [hsplit]
    exact List.mem_append_right _ ht
  have hvalue : (Expr.expression (run.tokens ++ [stop.1])).value = value :=
    congrArg Prod.fst (hexpression [])
  rw [assignment, pair_andThen (hexpression rest),
    pair_map (pair_skipPastTerminator hremains hstop rest), hvalue]

theorem excess_furtherTokens (further : Option (Terminal (.kind .comma) × Run argumentKinds)) :
    Token.excess (Phrase.furtherTokens further) = 0 := by
  cases further with
  | none => rfl
  | some args =>
    rw [Phrase.furtherTokens, Token.excess_cons, Token.weight_of_kind args.1.kind_eq (by decide),
      args.2.balanced.excess_eq]
    rfl

theorem isInner_of_kind {k : Token.Kind} (h : t.kind = k)
    (hword : k ≠ .keyword ∧ k ≠ .identifier) (hstop : k ≠ .terminator) : IsInner t :=
  ⟨Token.not_isLoopWord_of_kind h hword, ne_of_eq_of_ne h hstop, ne_of_eq_of_ne h hword.1⟩

theorem isInner_of_mem_furtherTokens
    {further : Option (Terminal (.kind .comma) × Run argumentKinds)}
    (hloop : ∀ t ∈ Phrase.furtherTokens further, t.isLoopWord = false) :
    ∀ t ∈ Phrase.furtherTokens further, IsInner t ∧ t.kind ≠ .assign := by
  cases further with
  | none => exact fun t h => by cases h
  | some args =>
    intro t ht
    have ht' := ht
    rw [Phrase.furtherTokens, List.mem_cons] at ht
    rcases ht with rfl | ht
    · have hkind := args.1.kind_eq
      exact ⟨isInner_of_kind hkind (by decide) (by decide), ne_of_eq_of_ne hkind (by decide)⟩
    · exact ⟨⟨hloop t ht', args.2.kind_ne ht (by decide) (by decide),
        args.2.kind_ne ht (by decide) (by decide)⟩,
        args.2.kind_ne ht (by decide) (by decide)⟩

/-- The text of `write` is not joined to what stands behind it. -/
theorem kind_ne_arithmetic_of_further
    (further : Option (Terminal (.kind .comma) × Run argumentKinds)) (right : Right)
    (rest : List Token) : ∀ t' ts', Phrase.furtherTokens further ++ right.1 :: rest = t' :: ts' →
      t'.kind ≠ .arithmetic := by
  intro t' ts' h
  cases further with
  | none =>
    cases h
    exact ne_of_eq_of_ne right.kind_lexeme.1 (by decide)
  | some args =>
    cases h
    exact ne_of_eq_of_ne args.1.kind_eq (by decide)

/-- The first argument of `write` is its text, the others are read from its own tokens, and what is
left of them is inert. -/
theorem pair_argumentList (left : Left) (text : Terminal (.kind .string))
    (further : Option (Terminal (.kind .comma) × Run argumentKinds)) (right : Right) (stop : Stop)
    (hc : ∀ t ∈ Phrase.furtherTokens further, t.IsClassified)
    (hloop : ∀ t ∈ Phrase.furtherTokens further, t.isLoopWord = false) :
    ∃ behind, Inert behind ∧ ∀ rest,
      (argumentList (left.1 :: text.1 ::
        (Phrase.furtherTokens further ++ right.1 :: stop.1 :: rest))).pair =
        (.text (Expr.unquote text.1.lexeme) ::
          (arguments (Phrase.furtherTokens further ++ [right.1])).value, behind ++ rest) := by
  have htext : text.1.kind = .string := text.kind_eq
  have hstop : stop.1.kind = .terminator := stop.kind_eq
  have hright : right.1.kind = .paren := (Token.isParen_iff.mp right.2).1
  have hinner := isInner_of_mem_furtherTokens hloop
  obtain ⟨values, remains, hremains, harguments⟩ :=
    pair_arguments (fun t ht => (hinner t ht).1) right.2
    (Int.le_of_eq (excess_furtherTokens further))
  have hends : ∀ t ∈ remains, t.kind ≠ .terminator := by
    intro t ht
    rcases List.mem_append.mp (hremains.subset ht) with ht | ht
    · exact (hinner t ht).1.terminator
    · rw [List.mem_singleton.mp ht]
      exact ne_of_eq_of_ne hright (by decide)
  obtain ⟨behind, hsuffix, hended⟩ :=
    pair_ended hends hstop (.text (Expr.unquote text.1.lexeme) :: values)
  have hinert : Inert ((Phrase.furtherTokens further ++ [right.1]) ++ [stop.1]) := by
    refine inert_append_singleton (fun t ht => ?_) ?_ ?_
    · rcases List.mem_append.mp ht with ht | ht
      · exact isQuiet_of_kind (hc t ht) (hloop t ht) (hinner t ht).1.keyword (hinner t ht).2
      · rw [List.mem_singleton.mp ht]
        exact isQuiet_of_paren right.2
    · exact isQuiet_of_stop stop
    · exact ne_of_eq_of_ne hstop (by decide)
  refine ⟨behind, hinert.of_suffix (hsuffix.trans ?_), fun rest => ?_⟩
  · obtain ⟨front, hfront⟩ := hremains
    rw [← hfront, List.append_assoc]
    exact List.suffix_append ..
  have hvalues : (arguments (Phrase.furtherTokens further ++ [right.1])).value = values :=
    congrArg Prod.fst (harguments [])
  have hexpression := pair_expression_of_string htext
    (kind_ne_arithmetic_of_further further right (stop.1 :: rest))
  have htail : (arguments (text.1 ::
      (Phrase.furtherTokens further ++ right.1 :: stop.1 :: rest))).pair =
      (.text (Expr.unquote text.1.lexeme) :: values, remains ++ stop.1 :: rest) := by
    rw [pair_arguments_of_expression _ _ _ hexpression, if_pos (Nat.le_refl _),
      harguments (stop.1 :: rest)]
    · rfl
    · rw [Token.isParen_iff, htext]
      exact fun h => absurd h.1 (by decide)
    · exact ne_of_eq_of_ne htext (by decide)
    · exact endsArguments_of_isInner (isInner_of_kind htext (by decide) (by decide))
  rw [argumentList, if_pos (show left.1.isParen "(" = true from left.2), pair_behind,
    pair_andThen htail, hended, hvalues]

/-- A phrase that is not meant to be a clause is inert. -/
theorem inert_of_clause?_eq_none {p : Phrase} (h : p.clause? = none)
    (hc : ∀ t ∈ p.tokens, t.IsClassified) (hloop : ∀ t ∈ p.tail, t.isLoopWord = false) :
    Inert p.tokens := by
  cases p with
  | empty stop =>
    show Inert ([] ++ [stop.1])
    exact inert_append_singleton (fun t ht => by cases ht) (isQuiet_of_stop stop)
      (ne_of_eq_of_ne stop.kind_eq (by decide))
  | conditionalEnd word =>
    show Inert ([] ++ [word.1])
    exact inert_append_singleton (fun t ht => by cases ht)
      (isQuiet_of_word word (by decide) (by decide)) (ne_of_eq_of_ne word.kind_lexeme.1 (by decide))
  | capture word left name right stop =>
    show Inert ([word.1, left.1, name.1, right.1] ++ [stop.1])
    have hname : name.1.kind = .identifier := name.kind_eq
    have hquiet : IsQuiet name.1 :=
      isQuiet_of_kind (hc _ (by simp [Phrase.tokens, Phrase.tail]))
        (hloop _ (by simp [Phrase.tail])) (ne_of_eq_of_ne hname (by decide))
        (ne_of_eq_of_ne hname (by decide))
    refine inert_append_singleton ?_ (isQuiet_of_stop stop) ?_
    · simp only [List.forall_mem_cons]
      exact ⟨isQuiet_of_word word (by decide) (by decide), isQuiet_of_paren left.2, hquiet,
        isQuiet_of_paren right.2, fun t ht => by cases ht⟩
    · exact ne_of_eq_of_ne stop.kind_eq (by decide)
  | conditional word left condition right next =>
    have htokens : Phrase.tokens (.conditional word left condition right next) =
        (word.1 :: left.1 :: (condition.tokens ++ [right.1])) ++ [next.1] := by
      simp [Phrase.tokens, Phrase.head, Phrase.tail]
    have hquiet : ∀ t ∈ condition.tokens, IsQuiet t :=
      isQuiet_of_mem condition
        (fun t ht => hc t (by simp [Phrase.tokens, Phrase.tail, ht]))
        (fun t ht => hloop t (by simp [Phrase.tail, ht])) (by decide) (by decide)
    rw [htokens]
    refine inert_append_singleton ?_ (isQuiet_of_word next (by decide) (by decide)) ?_
    · simp only [List.forall_mem_cons, List.forall_mem_append]
      exact ⟨isQuiet_of_word word (by decide) (by decide), isQuiet_of_paren left.2, hquiet,
        isQuiet_of_paren right.2, fun t ht => by cases ht⟩
    · exact ne_of_eq_of_ne next.kind_lexeme.1 (by decide)
  | assignment | write | loop | loopEnd => cases h

/-- **The clause of a phrase.** What is read from the tokens of a phrase is the clause that it is
meant to be, whatever follows, and what follows is read as if the phrase were not there. -/
theorem ofTokens_phrase (p : Phrase) (hc : ∀ t ∈ p.tokens, t.IsClassified)
    (hloop : ∀ t ∈ p.tail, t.isLoopWord = false) (rest : List Token) :
    ofTokens Int (p.tokens ++ rest) = p.clause?.toList ++ ofTokens Int rest := by
  cases p with
  | empty | conditionalEnd | capture | conditional =>
    exact (inert_of_clause?_eq_none rfl hc hloop).ofTokens rest
  | loopEnd word =>
    have hend := word.isWord (.inr rfl)
    have hread : (read Int word.1 rest).pair = (some .loopEnd, rest) := by
      rw [read, if_neg (Token.not_isWord hend (by decide)), if_pos hend, pair_stay]
    exact ofTokens_of_pair hread
  | loop word left condition right =>
    have hwhile := word.isWord (.inr rfl)
    obtain ⟨behind, hinert, hheader⟩ := pair_header left condition right
      (fun t ht => hc t (by simp [Phrase.tokens, Phrase.tail, ht]))
      (fun t ht => hloop t (by simp [Phrase.tail, ht]))
    have htokens : Phrase.tokens (.loop word left condition right) ++ rest =
        word.1 :: left.1 :: (condition.tokens ++ right.1 :: rest) := by
      simp [Phrase.tokens, Phrase.head, Phrase.tail]
    have hread : (read Int word.1 (left.1 :: (condition.tokens ++ right.1 :: rest))).pair =
        (Phrase.clause? (.loop word left condition right), behind ++ rest) := by
      rw [read, if_pos hwhile, pair_map (hheader rest), Phrase.clause?]
    rw [htokens, ofTokens_of_pair hread, hinert.ofTokens]
  | assignment target sign value stop =>
    obtain ⟨hwhile, hend⟩ := isWord_while_of_not_isLoopWord target.2.2
    have htokens : Phrase.tokens (.assignment target sign value stop) ++ rest =
        target.1 :: sign.1 :: (value.tokens ++ stop.1 :: rest) := by
      simp [Phrase.tokens, Phrase.head, Phrase.tail]
    have hread : (read Int target.1 (sign.1 :: (value.tokens ++ stop.1 :: rest))).pair =
        (Phrase.clause? (.assignment target sign value stop), rest) := by
      have hassign := assignment?_eq_some target.2 sign.kind_eq (value.tokens ++ stop.1 :: rest)
      have hpair := pair_assignment value stop
        (fun t ht => hloop t (by simp [Phrase.tail, ht])) rest
      rw [read, hwhile, hend, if_neg Bool.false_ne_true, if_neg Bool.false_ne_true, hassign]
      exact pair_map (pair_map hpair (Clause.assign target.1.lexeme)) some
    rw [htokens, ofTokens_of_pair hread]
  | write word left text further right stop =>
    have hwrite := word.isWord (.inl rfl)
    obtain ⟨behind, hinert, hlist⟩ := pair_argumentList left text further right stop
      (fun t ht => hc t (by simp [Phrase.tokens, Phrase.tail, ht]))
      (fun t ht => hloop t (by simp [Phrase.tail, ht]))
    have htokens : Phrase.tokens (.write word left text further right stop) ++ rest =
        word.1 :: left.1 :: text.1 ::
          (Phrase.furtherTokens further ++ right.1 :: stop.1 :: rest) := by
      simp [Phrase.tokens, Phrase.head, Phrase.tail]
    have hread : (read Int word.1 (left.1 :: text.1 ::
        (Phrase.furtherTokens further ++ right.1 :: stop.1 :: rest))).pair =
        (Phrase.clause? (.write word left text further right stop), behind ++ rest) := by
      have hassign : assignment? word.1 (left.1 :: text.1 ::
          (Phrase.furtherTokens further ++ right.1 :: stop.1 :: rest)) = none := by
        refine assignment?_eq_none fun t' ts' h => .inl ?_
        exact ne_of_eq_of_ne word.kind_lexeme.1 (by decide)
      rw [read, if_neg (Token.not_isWord hwrite (by decide)),
        if_neg (Token.not_isWord hwrite (by decide)), hassign]
      simp only [if_pos hwrite, pair_map (hlist rest), Phrase.clause?]
    rw [htokens, ofTokens_of_pair hread, hinert.ofTokens]

/-- The clauses of a list of phrases are read in front of whatever follows them. -/
theorem ofTokens_flatMap_append {phrases : List Phrase}
    (hc : ∀ p ∈ phrases, ∀ t ∈ p.tokens, t.IsClassified)
    (hloop : ∀ p ∈ phrases, ∀ t ∈ p.tail, t.isLoopWord = false) (rest : List Token) :
    ofTokens Int (phrases.flatMap Phrase.tokens ++ rest) =
      clauses phrases ++ ofTokens Int rest := by
  induction phrases with
  | nil => rfl
  | cons p phrases ih =>
    rw [List.forall_mem_cons] at hc hloop
    rw [List.flatMap_cons, List.append_assoc, ofTokens_phrase p hc.1 hloop.1, ih hc.2 hloop.2]
    cases hclause : p.clause? with
    | none => rw [clauses_cons_of_none hclause, Option.toList_none, List.nil_append]
    | some c =>
      rw [clauses_cons_of_some hclause, Option.toList_some, List.singleton_append,
        List.cons_append]

/-- The clauses of a list of phrases. -/
theorem ofTokens_flatMap {phrases : List Phrase}
    (hc : ∀ p ∈ phrases, ∀ t ∈ p.tokens, t.IsClassified)
    (hloop : ∀ p ∈ phrases, ∀ t ∈ p.tail, t.isLoopWord = false) :
    ofTokens Int (phrases.flatMap Phrase.tokens) = clauses phrases := by
  have h := ofTokens_flatMap_append hc hloop []
  rwa [List.append_nil, ofTokens_nil, List.append_nil] at h

end Clause

end Stepwise
