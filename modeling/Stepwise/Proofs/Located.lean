import Stepwise.Proofs.Clean

/-!
# Where diagnostics are

The checker reports a fault at a token, or at the end of the text. It goes over the text once, so
what it finds comes in the order of the text. But it does not always find it at the token that it
has just read. Where a piece is not all there, the fault is at the token in front, which is not
consumed. Checking goes on with that token at the head of the next statement, where a second fault
can be found at it. There cannot be a third, and the end of the text is no token that could be read
again.

All of this is one statement about lists. Of each diagnostic only its severity and its place count:
that is its mark. The marks of a piece are a sublist of one error at each token that it has read and
of what it may find in front of the tokens that it leaves. Put together, the marks of a program are
a sublist of two errors at each token and three at the end of the text. Nothing is asked of the
tokens, nor of how parentheses are counted.

## Main definitions

* `Check.mark` — the severity of a diagnostic and its place
* `Check.Outcome.Marked` — at most one error at each token that a piece has read
* `Check.Located` — each offset is that of a token

## Main results

* `Check.marks_validateIn_sublist` — the marks of a token list are among two errors at each token
* `located_validateIn`, `located_notExecutedNotes` — the diagnostics and the notes of a token list
-/

namespace Stepwise

open scoped List

/-- A fault that refuses a program. -/
def Fault.Refuses (f : Fault) : Prop := Severity.ofCode f.code = .error

namespace Check

/-! ### Marks -/

/-- The severity of a diagnostic and its place. -/
def mark (d : Diagnostic) : Severity × Option Nat := (d.severity, d.offset)

/-- The mark of an error at a token. -/
def errorAt (t : Token) : Severity × Option Nat := (.error, some t.offset)

/-- The mark of an error at the end of the text. -/
def errorAtEnd : Severity × Option Nat := (.error, none)

/-- The mark of an error in front of the remaining tokens. -/
def errorBefore (tokens : List Token) : Severity × Option Nat := (.error, offsetOf tokens)

variable {t : Token} {tokens ts : List Token} {f : Fault} {more : List (Severity × Option Nat)}

theorem mark_faultAt (h : f.Refuses) (t : Token) : mark (faultAt t f) = errorAt t :=
  congrArg (·, some t.offset) h

theorem mark_faultBefore (h : f.Refuses) (tokens : List Token) :
    mark (faultBefore tokens f) = errorBefore tokens :=
  congrArg (·, offsetOf tokens) h

namespace Outcome

variable {o : Outcome} {next : List Token → Outcome}

/-- At most one error is found at each token that a piece has read, in the order of the tokens, and
behind these at most `more`. -/
def Marked (tokens : List Token) (more : List (Severity × Option Nat)) (o : Outcome) : Prop :=
  ∃ read, tokens = read ++ o.rest ∧ o.diagnostics.map mark <+ read.map errorAt ++ more

theorem Marked.mono (h : o.Marked tokens more) {others : List (Severity × Option Nat)}
    (hsub : more <+ others) : o.Marked tokens others := by
  obtain ⟨read, htokens, hmarks⟩ := h
  exact ⟨read, htokens, hmarks.trans (hsub.append_left _)⟩

/-- A further token is read, and nothing is found at it. -/
theorem Marked.behind (h : o.Marked ts more) (t : Token) : o.Marked (t :: ts) more := by
  obtain ⟨read, rfl, hmarks⟩ := h
  exact ⟨t :: read, rfl, hmarks.cons (errorAt t)⟩

/-- A further token is read, and a fault is found at it. -/
theorem Marked.found (h : o.Marked ts more) (hf : f.Refuses) (t : Token) :
    (o.report [faultAt t f]).Marked (t :: ts) more := by
  obtain ⟨read, rfl, hmarks⟩ := h
  refine ⟨t :: read, rfl, ?_⟩
  rw [diagnostics_report, List.map_append, List.map_singleton, mark_faultAt hf]
  exact hmarks.cons_cons (errorAt t)

/-- What a piece has found in front of the tokens that it leaves. If it was all there, that is
nothing. -/
def pending (o : Outcome) : List (Severity × Option Nat) :=
  match o.complete with
  | true => []
  | false => [errorBefore o.rest]

/-- What the last piece of a statement may have found in front of the tokens that are left. At the
end of the text that can be an open parenthesis and then the missing end of the statement. -/
def allowance : List Token → List (Severity × Option Nat)
  | [] => List.replicate 2 errorAtEnd
  | t :: _ => [errorAt t]

theorem errorBefore_sublist (tokens : List Token) : [errorBefore tokens] <+ allowance tokens := by
  cases tokens with
  | nil => exact List.sublist_append_left [errorAtEnd] [errorAtEnd]
  | cons t ts => exact List.Sublist.refl _

theorem pending_sublist (o : Outcome) : o.pending <+ allowance o.rest := by
  rw [pending]
  split
  · exact List.nil_sublist _
  · exact errorBefore_sublist o.rest

/-- The outcome of a piece of a statement. What is found in front of the rest ends the statement. -/
def Begins (tokens : List Token) (o : Outcome) : Prop := o.Marked tokens o.pending

/-- The outcome of the last piece of a statement, or of a whole statement. -/
def Ends (tokens : List Token) (o : Outcome) : Prop := o.Marked tokens (allowance o.rest)

theorem Begins.ends (h : o.Begins tokens) : o.Ends tokens := h.mono o.pending_sublist

/-- A further piece is checked behind one that was all there, which has found nothing in front of
the rest. -/
theorem Begins.report (h : o.Begins tokens) (hcomplete : o.complete = true) {further : Outcome}
    (hfurther : further.Marked o.rest more) :
    (further.report o.diagnostics).Marked tokens more := by
  rw [Begins, pending, hcomplete] at h
  obtain ⟨read, htokens, hmarks⟩ := h
  obtain ⟨read', hrest, hmarks'⟩ := hfurther
  rw [List.append_nil] at hmarks
  refine ⟨read ++ read', ?_, ?_⟩
  · rw [htokens, hrest, List.append_assoc]
    rfl
  · rw [diagnostics_report, List.map_append, List.map_append, List.append_assoc]
    exact hmarks.append hmarks'

theorem Begins.andThen (h : o.Begins tokens) (hnext : ∀ ts, (next ts).Begins ts) :
    (o.andThen next).Begins tokens := by
  cases hcomplete : o.complete with
  | true =>
    rw [andThen_of_complete hcomplete]
    exact h.report hcomplete (hnext o.rest)
  | false =>
    rw [andThen_of_not_complete hcomplete]
    exact h

theorem Begins.andThen_ends (h : o.Begins tokens) (hnext : ∀ ts, (next ts).Ends ts) :
    (o.andThen next).Ends tokens := by
  cases hcomplete : o.complete with
  | true =>
    rw [andThen_of_complete hcomplete]
    exact h.report hcomplete (hnext o.rest)
  | false =>
    rw [andThen_of_not_complete hcomplete]
    exact h.ends

/-- The piece is the token in front. -/
theorem begins_read (t : Token) (ts : List Token) : Begins (t :: ts) ⟨true, [], ts⟩ :=
  ⟨[t], rfl, List.nil_sublist _⟩

/-- The piece is empty. -/
theorem begins_empty (tokens : List Token) : Begins tokens ⟨true, [], tokens⟩ :=
  ⟨[], rfl, List.nil_sublist _⟩

theorem marked_missing (hf : f.Refuses) (complete : Bool) (tokens : List Token) :
    Marked tokens [errorBefore tokens] ⟨complete, [faultBefore tokens f], tokens⟩ := by
  refine ⟨[], rfl, ?_⟩
  rw [List.map_singleton, mark_faultBefore hf]
  exact List.Sublist.refl _

/-- The piece is missing in front of the tokens. -/
theorem begins_missing (hf : f.Refuses) (tokens : List Token) :
    Begins tokens ⟨false, [faultBefore tokens f], tokens⟩ :=
  marked_missing hf false tokens

/-- The end of the statement is missing in front of the tokens. -/
theorem ends_missing (hf : f.Refuses) (tokens : List Token) :
    Ends tokens ⟨true, [faultBefore tokens f], tokens⟩ :=
  (marked_missing hf true tokens).mono (errorBefore_sublist tokens)

end Outcome

open Outcome

/-! ### Pieces -/

theorem begins_expect (w : Wanted) (tokens : List Token) : (expect w tokens).Begins tokens := by
  cases tokens with
  | nil => exact begins_missing (f := .wanted w none) rfl []
  | cons t ts =>
    rw [expect]
    split
    · exact begins_read t ts
    · exact begins_missing (f := .wanted w (some t.lexeme)) rfl (t :: ts)

theorem begins_closeWrite (tokens : List Token) : (closeWrite tokens).Begins tokens := by
  cases tokens with
  | nil => exact begins_missing (f := .openWrite) rfl []
  | cons t ts =>
    rw [closeWrite]
    split
    · exact begins_read t ts
    · exact begins_missing (f := .openWrite) rfl (t :: ts)

theorem ends_expectTerminator (hf : f.Refuses) (tokens : List Token) :
    (expectTerminator f tokens).Ends tokens := by
  cases tokens with
  | nil => exact ends_missing hf []
  | cons t ts =>
    rw [expectTerminator]
    split
    · exact (begins_read t ts).ends
    · exact ends_missing hf (t :: ts)

variable {κ σ : Type} [Depth κ] [Depth σ]

theorem begins_condition (block : Block) (depth : κ) (tokens : List Token) :
    (condition block depth tokens).Begins tokens := by
  induction tokens generalizing depth with
  | nil => exact begins_missing (f := .openCondition block) rfl []
  | cons t ts ih =>
    rw [condition]
    split
    · dsimp only
      split
      · exact begins_read t ts
      · exact (ih _).behind t
    all_goals
      first
      | exact (ih _).behind t
      | exact (ih _).found (f := .inCondition block t.lexeme) rfl t

theorem begins_arguments (depth : κ) (tokens : List Token) :
    (arguments depth tokens).Begins tokens := by
  induction tokens generalizing depth with
  | nil => exact begins_empty []
  | cons t ts ih =>
    rw [arguments]
    split
    · exact begins_empty (t :: ts)
    · split
      all_goals
        first
        | exact (ih _).behind t
        | exact (ih _).found (f := .inWrite t.lexeme) rfl t

theorem marks_openAssignment_sublist (depth : κ) (tokens : List Token) :
    (openAssignment depth tokens).map mark <+ [errorBefore tokens] := by
  rw [openAssignment]
  split
  · exact List.Sublist.refl _
  · exact List.nil_sublist _

/-- The right side of an assignment together with the end of the statement. By itself the right side
is no such piece: that a parenthesis is open is found in front of the terminator, before it is
read. -/
theorem ends_rightSide (hf : f.Refuses) (depth : σ) (tokens : List Token) :
    ((rightSide depth tokens).andThen (expectTerminator f)).Ends tokens := by
  induction tokens generalizing depth with
  | nil =>
    have hend : (expectTerminator f []).diagnostics.map mark = [errorAtEnd] := by
      rw [expectTerminator, List.map_singleton]
      exact congrArg (fun m => [m]) (mark_faultBefore hf [])
    refine ⟨[], rfl, ?_⟩
    rw [rightSide, andThen_of_complete rfl, diagnostics_report, List.map_append, hend]
    exact (marks_openAssignment_sublist depth []).append_right [errorAtEnd]
  | cons t ts ih =>
    rw [rightSide]
    split
    · next hkind =>
      rw [andThen_of_complete rfl, expectTerminator, if_pos hkind]
      refine ⟨[t], rfl, ?_⟩
      rw [diagnostics_report, List.append_nil]
      exact (marks_openAssignment_sublist depth (t :: ts)).trans (List.sublist_append_left _ _)
    · dsimp only
      split
      · exact (ends_expectTerminator hf ts).found (f := .strayClose) rfl t
      · exact (ih _).behind t
    all_goals
      first
      | exact (ih _).behind t
      | rw [report_andThen]
        exact (ih _).found (f := .inAssignment t.lexeme) rfl t

/-! ### Statements -/

theorem begins_header (block : Block) (tokens : List Token) :
    (header κ block tokens).Begins tokens :=
  (begins_expect _ tokens).andThen (begins_condition block _)

theorem ends_write (tokens : List Token) : (write κ tokens).Ends tokens := by
  refine ((((begins_expect _ tokens).andThen (begins_expect _)).andThen fun ts => ?_).andThen
    begins_closeWrite).andThen_ends (ends_expectTerminator rfl)
  cases ts with
  | nil => exact begins_empty []
  | cons t ts =>
    dsimp only
    split
    · exact (begins_arguments _ ts).behind t
    · exact begins_empty (t :: ts)

theorem ends_capture (tokens : List Token) : (capture tokens).Ends tokens :=
  (((begins_expect _ tokens).andThen (begins_expect _)).andThen (begins_expect _)).andThen_ends
    (ends_expectTerminator rfl)

theorem ends_assignment (tokens : List Token) : (assignment σ tokens).Ends tokens := by
  rw [assignment, andThen_assoc]
  exact (begins_expect _ tokens).andThen_ends (ends_rightSide (f := .unendedAssignment) rfl _)

theorem ends_close (block : Block) (t : Token) (blocks : List Block) (tokens : List Token) :
    (close block t blocks tokens).1.Ends (t :: tokens) := by
  rw [close]
  dsimp only
  split
  · exact (begins_read t tokens).ends
  · exact (begins_empty tokens).ends.found (f := .unmatchedCloser block) rfl t

/-- At the first token of a statement, too, at most one error is found. -/
theorem ends_statement (blocks : List Block) (t : Token) (tokens : List Token) :
    (statement κ σ blocks t tokens).1.Ends (t :: tokens) := by
  rw [statement]
  dsimp only
  split
  · exact ((begins_header _ tokens).andThen (begins_expect _)).ends.behind t
  split
  · exact (begins_header _ tokens).ends.behind t
  split
  · exact ends_close _ t blocks tokens
  split
  · exact ends_close _ t blocks tokens
  split
  · exact (ends_write tokens).behind t
  split
  · exact (ends_capture tokens).behind t
  split
  · exact (ends_assignment tokens).behind t
  split
  · exact (begins_read t tokens).ends
  · exact (begins_empty tokens).ends.found (f := .noStatement t.lexeme) rfl t

/-! ### Programs -/

/-- Two errors at each token. -/
def twice (tokens : List Token) : List (Severity × Option Nat) :=
  tokens.flatMap fun t => [errorAt t, errorAt t]

/-- What may be found in a program: at its first token one error, at each further token two, and
three at the end of the text. -/
def budget : List Token → List (Severity × Option Nat)
  | [] => [errorAtEnd]
  | t :: ts => errorAt t :: (twice ts ++ List.replicate 3 errorAtEnd)

theorem map_errorAt_sublist (tokens : List Token) : tokens.map errorAt <+ twice tokens := by
  induction tokens with
  | nil => exact List.Sublist.refl _
  | cons t ts ih => exact (ih.cons (errorAt t)).cons_cons (errorAt t)

/-- What a statement may find in front of the tokens that it leaves, and what may be found in these
as a program. -/
theorem allowance_append_budget_sublist (tokens : List Token) :
    allowance tokens ++ budget tokens <+
      twice tokens ++ List.replicate 3 errorAtEnd := by
  cases tokens with
  | nil => exact List.Sublist.refl _
  | cons t ts => exact List.Sublist.refl _

theorem budget_sublist (tokens : List Token) :
    budget tokens <+ twice tokens ++ List.replicate 3 errorAtEnd :=
  (List.sublist_append_right _ _).trans (allowance_append_budget_sublist tokens)

/-- Behind a statement, which has at least one token, the budget is still enough. -/
theorem budget_append_sublist (t : Token) (read rest : List Token) :
    (t :: read).map errorAt ++ allowance rest ++ budget rest <+ budget (t :: (read ++ rest)) := by
  have hfurther : read.map errorAt ++ (allowance rest ++ budget rest) <+
      twice read ++ (twice rest ++ List.replicate 3 errorAtEnd) :=
    (map_errorAt_sublist read).append (allowance_append_budget_sublist rest)
  rw [budget, twice, List.flatMap_append, List.append_assoc, List.append_assoc]
  exact hfurther.cons_cons (errorAt t)

/-- **At each token at most two errors are found**, in the order of the tokens, and at the end of
the text at most three. -/
theorem marks_program_sublist (blocks : List Block) (tokens : List Token) :
    (program κ σ blocks tokens).map mark <+ budget tokens := by
  induction blocks, tokens using program.induct κ σ with
  | case1 =>
    rw [program_nil]
    exact List.nil_sublist _
  | case2 block blocks =>
    rw [program_nil]
    exact List.Sublist.refl _
  | case3 blocks t ts checked ih =>
    obtain ⟨read, hread, hmarks⟩ := ends_statement (κ := κ) (σ := σ) blocks t ts
    have hlength := (statement_suffix κ σ blocks t ts).length_le
    rw [program_cons, List.map_append]
    refine (hmarks.append ih).trans ?_
    cases read with
    | nil =>
      have heq := congrArg List.length hread
      rw [List.nil_append, List.length_cons] at heq
      omega
    | cons r read =>
      obtain ⟨rfl, -⟩ := List.cons.inj hread
      have hts : ts = read ++ (statement κ σ blocks t ts).1.rest := (List.cons.inj hread).2
      have hbudget := budget_append_sublist t read (statement κ σ blocks t ts).1.rest
      rw [← hts] at hbudget
      exact hbudget

theorem marks_validateIn_sublist (κ σ : Type) [Depth κ] [Depth σ] (tokens : List Token) :
    (validateIn κ σ tokens).map mark <+ twice tokens ++ List.replicate 3 errorAtEnd :=
  (marks_program_sublist [] tokens).trans (budget_sublist tokens)

/-! ### Offsets -/

/-- Each diagnostic is at one of the tokens, or at the end of the text. -/
def Located (tokens : List Token) (ds : List Diagnostic) : Prop :=
  ∀ d ∈ ds, ∀ offset ∈ d.offset, ∃ t ∈ tokens, t.offset = offset

theorem exists_of_mem_twice {m : Severity × Option Nat} (h : m ∈ twice tokens) :
    ∃ t ∈ tokens, m = errorAt t := by
  obtain ⟨t, ht, hm⟩ := List.mem_flatMap.mp h
  rw [List.mem_cons, List.mem_singleton, or_self] at hm
  exact ⟨t, ht, hm⟩

theorem located_of_sublist {ds : List Diagnostic} {n : Nat}
    (h : ds.map mark <+ twice tokens ++ List.replicate n errorAtEnd) : Located tokens ds := by
  intro d hd offset hoffset
  rcases List.mem_append.mp (h.subset (List.mem_map_of_mem hd)) with hmem | hmem
  · obtain ⟨t, ht, hmark⟩ := exists_of_mem_twice hmem
    have hplace : d.offset = some t.offset := congrArg Prod.snd hmark
    exact ⟨t, ht, Option.some_inj.mp (hplace.symm.trans hoffset)⟩
  · have hend : d.offset = none := congrArg Prod.snd (List.eq_of_mem_replicate hmem)
    rw [hend] at hoffset
    cases hoffset

end Check

/-- **Each diagnostic is at one of the tokens**, or at the end of the text. -/
theorem located_validateIn (κ σ : Type) [Depth κ] [Depth σ] (tokens : List Token) :
    Check.Located tokens (validateIn κ σ tokens) :=
  Check.located_of_sublist (Check.marks_validateIn_sublist κ σ tokens)

theorem located_notExecutedNotes (tokens : List Token) :
    Check.Located tokens (notExecutedNotes tokens) := by
  intro d hd offset hoffset
  obtain ⟨t, ht, rfl⟩ := List.mem_map.mp hd
  exact ⟨t, (List.mem_filter.mp ht).1, Option.mem_some.mp hoffset⟩

end Stepwise
