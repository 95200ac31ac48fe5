import Stepwise.Proofs.Evaluated

/-!
# Statements that are not executed

Conditionals, `capture` and empty statements are checked, but the program does nothing for them. The
body of a conditional is run as if its head and its end were not there. So they can be taken out of
an accepted text, and what is left is accepted and has the same program.

The reader does not know these statements. It passes over their tokens one at a time, and looks at
each name and at each word on the way for the beginning of a statement. That nothing begins there,
and that nothing which began before goes on into them, is what `Clause.ofTokens_phrase` says of a
phrase and whatever follows. Here it is enough that the phrases which are left have the same clauses
as all of them. What has to be seen besides is that they are nested: with the heads of conditionals
their ends go, too, and the bodies close up.

Which statements are taken out is decided at the first token of each, where the checker sees
statements.

## Main definitions

* `Check.executed` — the tokens of a program without those statements

## Main results

* `Check.executed_of_segments` — in terms of phrases, those that become instructions are left
* `Grammar.Nested.filter_acts` — these are nested
* `ofTokens_executed` — what is left of an accepted text is accepted and has the same program
-/

namespace Stepwise

open Grammar

namespace Check

variable {t : Token} {tokens : List Token} {phrases : List Phrase}

/-- The words that begin statements for which the program does nothing. -/
def idleWords : List String := ["if", "end-if", "capture"]

/-- Whether the program does nothing for a statement that begins with a token. -/
def isIdle (t : Token) : Bool := idleWords.any t.isWord || t.kind == .terminator

/-- The tokens of the statements for which the program does something. -/
def executed (tokens : List Token) : List Token :=
  ((segments [] tokens).filter fun segment => !segment.head?.any isIdle).flatten

theorem isIdle_of_isWord {word : String} (h : t.isWord word = true) :
    isIdle t = idleWords.contains word := by
  obtain ⟨hkind, hlexeme⟩ := Token.isWord_iff.mp h
  have hwords : t.isWord = fun text => word == text := by
    funext text
    rw [Bool.eq_iff_iff, beq_iff_eq]
    refine ⟨fun htext => ?_, fun htext => htext ▸ h⟩
    exact hlexeme.symm.trans (Token.isWord_iff.mp htext).2
  have hterminator : (t.kind == .terminator) = false := by
    rcases hkind with hkind | hkind <;> rw [hkind] <;> rfl
  rw [isIdle, hwords, hterminator, Bool.or_false, List.contains_eq_any_beq]

/-- The first token of a phrase tells whether the phrase becomes an instruction. -/
theorem isIdle_head (p : Phrase) (hc : p.head.IsClassified) : isIdle p.head = !p.acts := by
  cases p with
  | empty stop =>
    rw [Phrase.head, isIdle, stop.kind_eq]
    exact Bool.or_true _
  | assignment target =>
    have hwords : ∀ word ∈ idleWords, ¬ target.1.isWord word = true := by
      intro word hword
      exact not_isWord_of_name target hc word ((show idleWords ⊆ words by decide) hword)
    rw [Phrase.head, isIdle, target.2.1, List.any_eq_false.mpr hwords]
    rfl
  | write word | capture word | conditional word | conditionalEnd word =>
    rw [Phrase.head, isIdle_of_isWord (word.isWord (.inl rfl))]
    rfl
  | loop word | loopEnd word =>
    rw [Phrase.head, isIdle_of_isWord (word.isWord (.inr rfl))]
    rfl

/-- Of phrases, those that become instructions are left. -/
theorem executed_of_segments (hsegments : segments [] tokens = phrases.map Phrase.tokens)
    (hc : ∀ p ∈ phrases, ∀ t ∈ p.tokens, t.IsClassified) :
    executed tokens = (phrases.filter Phrase.acts).flatMap Phrase.tokens := by
  have hfilter : phrases.filter ((fun segment => !segment.head?.any isIdle) ∘ Phrase.tokens) =
      phrases.filter Phrase.acts := by
    refine List.filter_congr fun p hp => ?_
    show (!isIdle p.head) = p.acts
    rw [isIdle_head p (hc p hp p.head List.mem_cons_self), Bool.not_not]
  rw [executed, hsegments, List.filter_map, hfilter, List.flatMap_def]

end Check

namespace Grammar

variable {p : Phrase} {phrases : List Phrase} {block : Block}

theorem Phrase.acts_of_opens (h : p.role = .opens block) : p.acts = (block == .loop) := by
  cases p <;> cases h <;> rfl

theorem Phrase.acts_of_closes (h : p.role = .closes block) : p.acts = (block == .loop) := by
  cases p <;> cases h <;> rfl

/-- **Without the phrases that become no instruction, phrases are still nested.** The head of a
block and its end are of one kind, so they stay together or go together. -/
theorem Nested.filter_acts (h : Nested phrases) : Nested (phrases.filter Phrase.acts) := by
  induction h with
  | nil => exact .nil
  | plain role _ ih =>
    rw [List.filter_cons]
    split
    · exact .plain role ih
    · exact ih
  | @block block first last body rest opens closes _ _ ihbody ihrest =>
    rw [List.filter_cons, List.filter_append, List.filter_cons, Phrase.acts_of_opens opens,
      Phrase.acts_of_closes closes]
    cases block with
    | loop => exact .block opens closes ihbody ihrest
    | conditional => exact ihbody.append ihrest

theorem clauses_filter_acts (phrases : List Phrase) :
    clauses (phrases.filter Phrase.acts) = clauses phrases := by
  rw [clauses, clauses, List.filterMap_filter]
  refine congrArg (List.filterMap · phrases) ?_
  funext p
  cases p <;> rfl

/-- The tokens of nested phrases are accepted. -/
theorem Nested.accepts (h : Nested phrases) (hc : ∀ p ∈ phrases, ∀ t ∈ p.tokens, t.IsClassified) :
    accepts (phrases.flatMap Phrase.tokens) = true := by
  rw [accepts_iff, validate, validateIn,
    Check.program_eq_nil_iff (List.forall_mem_flatMap.mpr hc)]
  exact ⟨phrases, nested_iff_foldlM.mp h, rfl⟩

end Grammar

/-- **Statements that are not executed can be taken out.** What is left of an accepted text in which
the words of loops stand only at the head of statements is the phrases that become instructions. It
has the program of the whole text, and it is accepted. -/
theorem ofTokens_executed {text : String} (h : accepts (Token.scan text) = true)
    (hlead : Check.LoopWordsLead (Token.scan text)) :
    (∃ phrases, Nested phrases ∧ Check.segments [] (Token.scan text) = phrases.map Phrase.tokens ∧
        Check.executed (Token.scan text) = (phrases.filter Phrase.acts).flatMap Phrase.tokens) ∧
      Program.ofTokens (Check.executed (Token.scan text)) = Program.ofTokens (Token.scan text) ∧
      accepts (Check.executed (Token.scan text)) = true := by
  obtain ⟨phrases, hnested, hflat, hsegments, hc⟩ := Check.exists_phrases_of_accepts h
  have hloop := hlead.tail hsegments
  have hexecuted := Check.executed_of_segments hsegments hc
  have hkept : ∀ p ∈ phrases.filter Phrase.acts, p ∈ phrases := fun p => List.mem_of_mem_filter
  have hckept : ∀ p ∈ phrases.filter Phrase.acts, ∀ t ∈ p.tokens, t.IsClassified :=
    fun p hp => hc p (hkept p hp)
  refine ⟨⟨phrases, hnested, hsegments, hexecuted⟩, ?_, ?_⟩
  · calc Program.ofTokens (Check.executed (Token.scan text))
        = Program.ofStmts (Stmt.ofClauses (clauses (phrases.filter Phrase.acts))) := by
          rw [hexecuted, Program.ofTokens_flatMap hckept fun p hp => hloop p (hkept p hp)]
      _ = Program.ofStmts (Stmt.ofClauses (clauses phrases)) := by rw [clauses_filter_acts]
      _ = Program.ofTokens (Token.scan text) := by rw [← hflat, Program.ofTokens_flatMap hc hloop]
  · rw [hexecuted]
    exact hnested.filter_acts.accepts hckept

/-- A loop, in the head of which the reader stops early, with a conditional, `capture` and an empty
statement in it. -/
theorem ofTokens_executed_in_loop :
    (Check.executed (Token.scan
        "while ((x) < 2 (y)) if (y) then x = 1 :: end-if capture(y) :: :: end-while")).map
          Token.lexeme =
        ["while", "(", "(", "x", ")", "<", "2", "(", "y", ")", ")", "x", "=", "1", "::",
          "end-while"] ∧
      Program.ofTokens (Check.executed (Token.scan
        "while ((x) < 2 (y)) if (y) then x = 1 :: end-if capture(y) :: :: end-while")) =
        Program.ofTokens (Token.scan
          "while ((x) < 2 (y)) if (y) then x = 1 :: end-if capture(y) :: :: end-while") ∧
      accepts (Check.executed (Token.scan
        "while ((x) < 2 (y)) if (y) then x = 1 :: end-if capture(y) :: :: end-while")) = true :=
  ⟨by decide +kernel, (ofTokens_executed (by decide +kernel) (by decide +kernel)).2⟩

end Stepwise
