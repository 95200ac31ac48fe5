import Stepwise.Check
import Stepwise.Compilation
import Stepwise.Proofs.Leftovers

/-!
# Places of tokens

A token knows where it stands, and what is made of it does not depend on that. The readers ask for
kinds and lexemes only. The checker puts places into what it reports, and it asks for nothing else
but kinds and lexemes, either.

`Token.unplaced` takes the place of a token away, and a reader or a piece of the checker works on
such tokens as it works on the tokens that had places: it stops at the same token, and what it
answers is the same but for the places in it. The combinators keep that, so the proofs go along the
definitions. What follows is that lists of tokens with the same kinds and lexemes have the same
statements, the same program and the same findings, in the same order.

## Main definitions

* `Token.unplaced` — a token without its place
* `Reading.IgnoresPlaces`, `Check.Outcome.IgnoresPlaces` — readers and pieces of the checker that do
  not depend on places
* `Diagnostic.said` — the code and the message of a diagnostic

## Main results

* `Program.ofTokens_map_unplaced` — the program does not depend on places
* `said_validate_map_unplaced` — nor do codes and messages
-/

namespace Stepwise

/-- Where two choices are made by the same test, what is related in each case is related. -/
theorem rel_ite {α β : Type} (R : α → β → Prop) {test : Prop} [Decidable test] {a other : α}
    {b other' : β} (h : R a b) (hother : R other other') :
    R (if test then a else other) (if test then b else other') := by
  split
  · exact h
  · exact hother

namespace Token

/-- The token without its place. -/
def unplaced (t : Token) : Token := { t with span := ⟨0, 0⟩ }

@[simp] theorem kind_unplaced (t : Token) : t.unplaced.kind = t.kind := rfl

@[simp] theorem isLoopWord_unplaced (t : Token) : t.unplaced.isLoopWord = t.isLoopWord := rfl

@[simp] theorem isParen_unplaced (t : Token) (text : String) :
    t.unplaced.isParen text = t.isParen text := rfl

/-- A token without its place is its kind and its lexeme. -/
theorem map_unplaced_congr {ts us : List Token}
    (h : ts.map (fun t => (t.kind, t.lexeme)) = us.map fun t => (t.kind, t.lexeme)) :
    ts.map unplaced = us.map unplaced := by
  have hpairs := congrArg (List.map fun p : Kind × String => (⟨p.1, p.2, ⟨0, 0⟩⟩ : Token)) h
  rwa [List.map_map, List.map_map] at hpairs

end Token

open Token

/-! ### Readings -/

namespace Reading

variable {α β : Type} {tokens tokens' : List Token}

/-- The same reading of tokens without their places. -/
structure Moved (r : Reading α tokens) (r' : Reading α tokens') : Prop where
  /-- The same is read. -/
  value : r'.value = r.value
  /-- The same tokens are left. -/
  rest : r'.rest = r.rest.map unplaced

/-- A reader to which it is the same where tokens stand. -/
def IgnoresPlaces (r : Reader α) : Prop := ∀ ts, (r ts).Moved (r (ts.map unplaced))

variable {r : Reading α tokens} {r' : Reading α tokens'}

theorem moved_stay (value : α) (ts : List Token) :
    (stay value ts).Moved (stay value (ts.map unplaced)) := ⟨rfl, rfl⟩

theorem moved_skip (value : α) (t : Token) (ts : List Token) :
    (skip value t ts).Moved (skip value t.unplaced (ts.map unplaced)) := ⟨rfl, rfl⟩

/-- At the end of the text there are no places. -/
theorem moved_nil (r : Reader α) : (r []).Moved (r ([].map unplaced)) := by
  refine ⟨rfl, ?_⟩
  rw [List.map_nil, List.suffix_nil.mp (r []).rest_suffix, List.map_nil]

theorem Moved.map (h : r.Moved r') (f : α → β) : (r.map f).Moved (r'.map f) :=
  ⟨congrArg f h.value, h.rest⟩

theorem Moved.behind (h : r.Moved r') (t t' : Token) : (r.behind t).Moved (r'.behind t') :=
  ⟨h.value, h.rest⟩

theorem Moved.andThen (h : r.Moved r') {next : α → Reader β}
    (hnext : ∀ value, IgnoresPlaces (next value)) :
    (r.andThen next).Moved (r'.andThen next) := by
  have hfurther := hnext r.value r.rest
  constructor
  · rw [value_andThen, value_andThen, h.value, h.rest]
    exact hfurther.value
  · rw [rest_andThen, rest_andThen, h.value, h.rest]
    exact hfurther.rest

theorem Moved.of_pair {value : α} {rest : List Token} (h : r.pair = (value, rest))
    (h' : r'.pair = (value, rest.map unplaced)) : r.Moved r' := by
  rw [pair, Prod.mk.injEq] at h h'
  exact ⟨h'.1.trans h.1.symm, by rw [h'.2, h.2]⟩

theorem Moved.pair_eq (h : r.Moved r') : r'.pair = (r.value, r.rest.map unplaced) :=
  Prod.ext h.value h.rest

end Reading

section

open Reading

/-! ### Expressions -/

namespace Expr

variable {operators : List Operator} {item : Reader Expr}

theorem ignoresPlaces_chain (hitem : IgnoresPlaces item) (left : Expr) :
    IgnoresPlaces (chain operators item left) := by
  intro ts
  induction left, ts using chain_induction operators item with
  | nil left => exact moved_nil _
  | stop left t ts hop =>
    have hop' : operatorAmong? operators t.unplaced = none := hop
    exact .of_pair (pair_chain_of_none hop) (pair_chain_of_none hop')
  | operator left t ts op hop ih =>
    have hop' : operatorAmong? operators t.unplaced = some op := hop
    refine .of_pair (pair_chain_of_some hop rfl) ?_
    rw [List.map_cons, pair_chain_of_some hop' (hitem ts).pair_eq]
    exact ih.pair_eq

theorem ignoresPlaces_chained (hitem : IgnoresPlaces item) :
    IgnoresPlaces (chained operators item) := by
  intro ts
  refine (hitem ts).andThen ?_
  intro value
  exact ignoresPlaces_chain hitem value

theorem ignoresPlaces_sum (hitem : IgnoresPlaces item) : IgnoresPlaces (sum item) :=
  ignoresPlaces_chained (ignoresPlaces_chained hitem)

theorem ignoresPlaces_closed (e : Expr) : IgnoresPlaces (closed e) := by
  intro ts
  cases ts with
  | nil => exact moved_nil _
  | cons t ts =>
    rw [List.map_cons, closed, closed]
    exact rel_ite Moved (moved_skip e t ts) (moved_stay e (t :: ts))

theorem ignoresPlaces_operandWith {grouped negated : Reader Expr}
    (hgrouped : IgnoresPlaces grouped) (hnegated : IgnoresPlaces negated) :
    IgnoresPlaces (operandWith grouped negated) := by
  intro ts
  cases ts with
  | nil => exact moved_nil _
  | cons t ts =>
    rw [List.map_cons]
    cases hk : t.kind with
    | number | string =>
      simp only [operandWith, kind_unplaced, hk]
      exact moved_skip _ t ts
    | identifier =>
      simp only [operandWith, kind_unplaced, hk]
      exact rel_ite Moved (moved_stay zero (t :: ts)) (moved_skip _ t ts)
    | paren =>
      simp only [operandWith, kind_unplaced, hk]
      exact rel_ite Moved ((hgrouped ts).behind t t.unplaced) (moved_stay zero (t :: ts))
    | arithmetic =>
      simp only [operandWith, kind_unplaced, hk]
      exact rel_ite Moved ((hnegated ts).behind t t.unplaced) (moved_stay zero (t :: ts))
    | keyword | relation | logic | comma | terminator | assign | unknown =>
      simp only [operandWith, kind_unplaced, hk]
      exact moved_stay zero (t :: ts)

theorem ignoresPlaces_operand (depth : Nat) : IgnoresPlaces (operand depth) := by
  induction depth with
  | zero => exact ignoresPlaces_operandWith (moved_stay zero) (moved_stay zero)
  | succ depth ih =>
    refine ignoresPlaces_operandWith ?_ ?_
    · intro ts
      exact (ignoresPlaces_sum ih ts).andThen ignoresPlaces_closed
    · intro ts
      exact (ih ts).map negate

theorem ignoresPlaces_expression : IgnoresPlaces expression :=
  ignoresPlaces_sum (ignoresPlaces_operand maxDepth)

theorem ignoresPlaces_condition : IgnoresPlaces condition := by
  intro ts
  refine (ignoresPlaces_expression ts).andThen ?_
  intro left ts
  cases ts with
  | nil => exact moved_stay left []
  | cons t ts =>
    refine rel_ite Moved ?_ (moved_stay left (t :: ts))
    exact ((ignoresPlaces_expression ts).map _).behind t t.unplaced

end Expr

/-! ### Clauses -/

namespace Clause

variable {κ : Type} [Depth κ]

theorem ignoresPlaces_skipPastClose (depth : κ) : IgnoresPlaces (skipPastClose depth) := by
  intro ts
  induction ts generalizing depth with
  | nil => exact moved_nil _
  | cons t ts ih =>
    have hbehind : ∀ depth : κ, ((skipPastClose depth ts).behind t).Moved
        ((skipPastClose depth (ts.map unplaced)).behind t.unplaced) := by
      intro depth
      exact (ih depth).behind t t.unplaced
    rw [List.map_cons, skipPastClose, skipPastClose]
    refine rel_ite Moved (moved_stay () (t :: ts)) ?_
    refine rel_ite Moved (hbehind _) ?_
    refine rel_ite Moved ?_ (hbehind _)
    exact rel_ite Moved (moved_skip () t ts) (hbehind _)

theorem ignoresPlaces_skipPastTerminator : IgnoresPlaces skipPastTerminator := by
  intro ts
  induction ts with
  | nil => exact moved_nil _
  | cons t ts ih =>
    rw [List.map_cons, skipPastTerminator, skipPastTerminator]
    refine rel_ite Moved (moved_skip () t ts) ?_
    exact rel_ite Moved (moved_stay () (t :: ts)) (ih.behind t t.unplaced)

theorem ignoresPlaces_header : IgnoresPlaces (header κ) := by
  intro ts
  cases ts with
  | nil => exact moved_nil _
  | cons t ts =>
    rw [List.map_cons, header, header]
    refine rel_ite Moved ?_ (Expr.ignoresPlaces_condition (t :: ts))
    refine ((Expr.ignoresPlaces_condition ts).andThen ?_).behind t t.unplaced
    intro condition rest
    exact (ignoresPlaces_skipPastClose _ rest).map _

theorem ignoresPlaces_assignment : IgnoresPlaces assignment := by
  intro ts
  refine (Expr.ignoresPlaces_expression ts).andThen ?_
  intro value rest
  exact (ignoresPlaces_skipPastTerminator rest).map _

theorem ignoresPlaces_arguments : IgnoresPlaces arguments := by
  intro ts
  induction ts using arguments_induction with
  | nil => exact moved_nil _
  | close t ts hright =>
    have hright' : t.unplaced.isParen ")" = true := hright
    exact .of_pair (pair_arguments_of_right hright) (pair_arguments_of_right hright')
  | comma t ts hright hcomma ih =>
    have hcomma' : t.unplaced.kind = .comma := hcomma
    refine .of_pair (pair_arguments_of_comma hcomma) ?_
    rw [List.map_cons, pair_arguments_of_comma hcomma']
    exact ih.pair_eq
  | stop t ts hright hcomma hends =>
    have hends' : endsArguments t.unplaced = true := hends
    rw [List.map_cons, arguments, arguments, isParen_unplaced, kind_unplaced, if_neg hright,
      if_neg hright, if_neg hcomma, if_neg hcomma, if_pos hends, if_pos hends']
    exact moved_stay [] (t :: ts)
  | expression t ts others hright hcomma hends hothers ih =>
    have hpair := pair_arguments_of_expression hright hcomma hends
      (show (Expr.expression (t :: ts)).pair = (_, _) from rfl)
    have hpair' := pair_arguments_of_expression
      (show ¬ t.unplaced.isParen ")" = true from hright)
      (show t.unplaced.kind ≠ .comma from hcomma)
      (show endsArguments t.unplaced = false from hends)
      (Expr.ignoresPlaces_expression (t :: ts)).pair_eq
    rw [hothers] at hpair
    rw [List.length_map, List.length_map, ← apply_ite (List.map unplaced), hothers,
      ih.pair_eq] at hpair'
    exact .of_pair hpair hpair'

theorem ignoresPlaces_ended {α : Type} (a : α) : IgnoresPlaces (ended a) := by
  intro ts
  cases ts with
  | nil => exact moved_nil _
  | cons t ts =>
    rw [List.map_cons, ended, ended]
    exact rel_ite Moved (moved_skip a t ts) (moved_stay a (t :: ts))

theorem ignoresPlaces_argumentList : IgnoresPlaces argumentList := by
  intro ts
  cases ts with
  | nil => exact moved_nil _
  | cons t ts =>
    rw [List.map_cons, argumentList, argumentList]
    refine rel_ite Moved ?_ ?_
    · exact ((ignoresPlaces_arguments ts).andThen ignoresPlaces_ended).behind t t.unplaced
    · exact (ignoresPlaces_arguments (t :: ts)).andThen ignoresPlaces_ended

/-- Whether a name is the target of an assignment does not depend on places. -/
theorem assignment?_unplaced (target : Token) (ts : List Token) :
    (assignment? target ts = none ∧ assignment? target.unplaced (ts.map unplaced) = none) ∨
      ∃ r r', assignment? target ts = some r ∧
        assignment? target.unplaced (ts.map unplaced) = some r' ∧ r.Moved r' := by
  cases ts with
  | nil => exact .inl ⟨rfl, rfl⟩
  | cons t ts =>
    rw [List.map_cons, assignment?, assignment?, kind_unplaced, kind_unplaced, isLoopWord_unplaced]
    split
    · exact .inr ⟨_, _, rfl, rfl, ((ignoresPlaces_assignment ts).map _).behind t t.unplaced⟩
    · exact .inl ⟨rfl, rfl⟩

theorem moved_read (t : Token) (ts : List Token) :
    (read κ t ts).Moved (read κ t.unplaced (ts.map unplaced)) := by
  rw [read, read]
  refine rel_ite Moved ((ignoresPlaces_header ts).map _) ?_
  refine rel_ite Moved (moved_stay _ ts) ?_
  rcases assignment?_unplaced t ts with ⟨hnone, hnone'⟩ | ⟨r, r', hsome, hsome', hmoved⟩
  · rw [hnone, hnone']
    exact rel_ite Moved ((ignoresPlaces_argumentList ts).map _) (moved_stay none ts)
  · rw [hsome, hsome']
    exact hmoved.map some

/-- **The clauses of tokens do not depend on places.** -/
theorem ofTokens_map_unplaced (ts : List Token) :
    ofTokens κ (ts.map unplaced) = ofTokens κ ts := by
  induction ts using ofTokens.induct κ with
  | case1 => rfl
  | case2 t ts reading ih =>
    have hread : (read κ t ts).Moved (read κ t.unplaced (ts.map unplaced)) := moved_read t ts
    rw [List.map_cons, ofTokens_cons, ofTokens_cons, hread.value, hread.rest, ih]

end Clause

end

/-- **The program of tokens does not depend on places.** -/
theorem Program.ofTokens_map_unplaced (ts : List Token) :
    ofTokens (ts.map unplaced) = ofTokens ts := by
  rw [ofTokens_eq, ofTokens_eq, Stmt.ofTokens, Stmt.ofTokensIn, Clause.ofTokens_map_unplaced]
  rfl

/-! ### Checking -/

/-- What a diagnostic says, without its place. -/
def Diagnostic.said (d : Diagnostic) : UInt16 × String := (d.code, d.message)

namespace Check

namespace Outcome

/-- The same outcome for tokens without their places. -/
structure Moved (o o' : Outcome) : Prop where
  complete : o'.complete = o.complete
  /-- The same faults are found in the same order. -/
  said : o'.diagnostics.map Diagnostic.said = o.diagnostics.map Diagnostic.said
  rest : o'.rest = o.rest.map unplaced

/-- A piece of the checker that says the same wherever tokens stand. -/
def IgnoresPlaces (check : List Token → Outcome) : Prop :=
  ∀ ts, (check ts).Moved (check (ts.map unplaced))

variable {o o' : Outcome} {next : List Token → Outcome}

/-- Nothing is found. -/
theorem moved_quiet (complete : Bool) (ts : List Token) :
    Moved ⟨complete, [], ts⟩ ⟨complete, [], ts.map unplaced⟩ := ⟨rfl, rfl, rfl⟩

/-- A fault is found at a token. -/
theorem moved_found (complete : Bool) (t : Token) (f : Fault) (ts : List Token) :
    Moved ⟨complete, [faultAt t f], ts⟩ ⟨complete, [faultAt t.unplaced f], ts.map unplaced⟩ :=
  ⟨rfl, rfl, rfl⟩

theorem Moved.report (h : o.Moved o') {ds ds' : List Diagnostic}
    (hds : ds'.map Diagnostic.said = ds.map Diagnostic.said) :
    (o.report ds).Moved (o'.report ds') := by
  refine ⟨h.complete, ?_, h.rest⟩
  rw [diagnostics_report, diagnostics_report, List.map_append, List.map_append, hds, h.said]

theorem Moved.andThen (h : o.Moved o') (hnext : IgnoresPlaces next) :
    (o.andThen next).Moved (o'.andThen next) := by
  cases hcomplete : o.complete with
  | true =>
    rw [andThen_of_complete hcomplete, andThen_of_complete (h.complete.trans hcomplete), h.rest]
    exact (hnext o.rest).report h.said
  | false =>
    rw [andThen_of_not_complete hcomplete, andThen_of_not_complete (h.complete.trans hcomplete)]
    exact h

end Outcome

open Outcome

variable {κ σ : Type} [Depth κ] [Depth σ]

theorem ignoresPlaces_expect (w : Wanted) : IgnoresPlaces (expect w) := by
  intro ts
  cases ts with
  | nil => exact ⟨rfl, rfl, rfl⟩
  | cons t ts =>
    have haccepts : w.accepts t = w.accepts t.unplaced := by cases w <;> rfl
    rw [List.map_cons, expect, expect, haccepts]
    exact rel_ite Moved (moved_quiet true ts) (moved_found false t _ (t :: ts))

theorem ignoresPlaces_expectTerminator (f : Fault) : IgnoresPlaces (expectTerminator f) := by
  intro ts
  cases ts with
  | nil => exact ⟨rfl, rfl, rfl⟩
  | cons t ts =>
    rw [List.map_cons, expectTerminator, expectTerminator]
    exact rel_ite Moved (moved_quiet true ts) (moved_found true t f (t :: ts))

theorem ignoresPlaces_closeWrite : IgnoresPlaces closeWrite := by
  intro ts
  cases ts with
  | nil => exact ⟨rfl, rfl, rfl⟩
  | cons t ts =>
    rw [List.map_cons, closeWrite, closeWrite]
    exact rel_ite Moved (moved_quiet true ts) (moved_found false t _ (t :: ts))

theorem ignoresPlaces_condition (block : Block) (depth : κ) :
    IgnoresPlaces (condition block depth) := by
  intro ts
  induction ts generalizing depth with
  | nil => exact ⟨rfl, rfl, rfl⟩
  | cons t ts ih =>
    rw [List.map_cons]
    cases hk : t.kind with
    | paren =>
      simp only [condition, kind_unplaced, hk]
      exact rel_ite Moved (moved_quiet true ts) (ih _)
    | number | identifier | relation | logic =>
      simp only [condition, kind_unplaced, hk]
      exact ih depth
    | keyword | arithmetic | comma | string | terminator | assign | unknown =>
      simp only [condition, kind_unplaced, hk]
      exact (ih depth).report rfl

theorem ignoresPlaces_arguments (depth : κ) : IgnoresPlaces (arguments depth) := by
  intro ts
  induction ts generalizing depth with
  | nil => exact ⟨rfl, rfl, rfl⟩
  | cons t ts ih =>
    rw [List.map_cons, arguments, arguments]
    refine rel_ite Moved (moved_quiet true (t :: ts)) ?_
    cases hk : t.kind with
    | paren =>
      simp only [kind_unplaced, hk]
      exact ih _
    | number | identifier | arithmetic | comma =>
      simp only [kind_unplaced, hk]
      exact ih depth
    | keyword | relation | logic | string | terminator | assign | unknown =>
      simp only [kind_unplaced, hk]
      exact (ih depth).report rfl

theorem said_openAssignment (depth : κ) (ts us : List Token) :
    (openAssignment depth ts).map Diagnostic.said =
      (openAssignment depth us).map Diagnostic.said := by
  rw [openAssignment, openAssignment]
  split
  · rfl
  · rfl

theorem ignoresPlaces_rightSide (depth : σ) : IgnoresPlaces (rightSide depth) := by
  intro ts
  induction ts generalizing depth with
  | nil => exact ⟨rfl, rfl, rfl⟩
  | cons t ts ih =>
    rw [List.map_cons]
    cases hk : t.kind with
    | terminator =>
      simp only [rightSide, kind_unplaced, hk]
      exact ⟨rfl, said_openAssignment depth _ _, rfl⟩
    | paren =>
      simp only [rightSide, kind_unplaced, hk]
      exact rel_ite Moved (moved_found true t .strayClose ts) (ih _)
    | number | identifier | arithmetic | string =>
      simp only [rightSide, kind_unplaced, hk]
      exact ih depth
    | keyword | relation | logic | comma | assign | unknown =>
      simp only [rightSide, kind_unplaced, hk]
      exact (ih depth).report rfl

theorem ignoresPlaces_header (block : Block) : IgnoresPlaces (header κ block) := by
  intro ts
  exact (ignoresPlaces_expect _ ts).andThen (ignoresPlaces_condition block _)

theorem ignoresPlaces_write : IgnoresPlaces (write κ) := by
  intro ts
  have hfirst := (ignoresPlaces_expect (.lexeme .paren "(") ts).andThen
    (ignoresPlaces_expect (.kind .string))
  refine ((hfirst.andThen ?_).andThen ignoresPlaces_closeWrite).andThen
    (ignoresPlaces_expectTerminator _)
  intro ts
  cases ts with
  | nil => exact ⟨rfl, rfl, rfl⟩
  | cons t ts =>
    exact rel_ite Moved (ignoresPlaces_arguments _ ts) (moved_quiet true (t :: ts))

theorem ignoresPlaces_capture : IgnoresPlaces capture := by
  intro ts
  exact (((ignoresPlaces_expect _ ts).andThen (ignoresPlaces_expect _)).andThen
    (ignoresPlaces_expect _)).andThen (ignoresPlaces_expectTerminator _)

theorem ignoresPlaces_assignment : IgnoresPlaces (assignment σ) := by
  intro ts
  exact ((ignoresPlaces_expect _ ts).andThen (ignoresPlaces_rightSide _)).andThen
    (ignoresPlaces_expectTerminator _)

/-- The same outcome of a statement for tokens without their places, with the same blocks open
behind it. -/
def MovedStatement (checked checked' : Outcome × List Block) : Prop :=
  checked.1.Moved checked'.1 ∧ checked'.2 = checked.2

theorem movedStatement_close (block : Block) (t : Token) (blocks : List Block) (ts : List Token) :
    MovedStatement (close block t blocks ts) (close block t.unplaced blocks (ts.map unplaced)) := by
  refine ⟨⟨rfl, ?_, rfl⟩, rfl⟩
  dsimp only [close]
  split
  · rfl
  · rfl

theorem movedStatement_statement (blocks : List Block) (t : Token) (ts : List Token) :
    MovedStatement (statement κ σ blocks t ts)
      (statement κ σ blocks t.unplaced (ts.map unplaced)) := by
  have hopened : ∀ (block : Block) {o o' : Outcome}, o.Moved o' →
      MovedStatement (o, if o.complete then block :: blocks else blocks)
        (o', if o'.complete then block :: blocks else blocks) := by
    intro block o o' h
    exact ⟨h, by rw [h.complete]⟩
  rw [statement, statement]
  refine rel_ite MovedStatement ?_ ?_
  · exact hopened _ ((ignoresPlaces_header _ ts).andThen (ignoresPlaces_expect _))
  refine rel_ite MovedStatement (hopened _ (ignoresPlaces_header _ ts)) ?_
  refine rel_ite MovedStatement (movedStatement_close _ t blocks ts) ?_
  refine rel_ite MovedStatement (movedStatement_close _ t blocks ts) ?_
  refine rel_ite MovedStatement ⟨ignoresPlaces_write ts, rfl⟩ ?_
  refine rel_ite MovedStatement ⟨ignoresPlaces_capture ts, rfl⟩ ?_
  refine rel_ite MovedStatement ⟨ignoresPlaces_assignment ts, rfl⟩ ?_
  exact rel_ite MovedStatement ⟨moved_quiet true ts, rfl⟩
    ⟨moved_found true t (.noStatement t.lexeme) ts, rfl⟩

theorem said_program_map_unplaced (blocks : List Block) (ts : List Token) :
    (program κ σ blocks (ts.map unplaced)).map Diagnostic.said =
      (program κ σ blocks ts).map Diagnostic.said := by
  induction blocks, ts using program.induct κ σ with
  | case1 => rfl
  | case2 block blocks => rfl
  | case3 blocks t ts checked ih =>
    have hstatement : MovedStatement (statement κ σ blocks t ts)
        (statement κ σ blocks t.unplaced (ts.map unplaced)) := movedStatement_statement blocks t ts
    rw [List.map_cons, program_cons, program_cons, List.map_append, List.map_append,
      hstatement.1.said, hstatement.1.rest, hstatement.2, ih]

end Check

/-- **What is found does not depend on places.** -/
theorem said_validate_map_unplaced (ts : List Token) :
    (validate (ts.map unplaced)).map Diagnostic.said = (validate ts).map Diagnostic.said :=
  Check.said_program_map_unplaced [] ts

end Stepwise
