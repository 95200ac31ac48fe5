import Stepwise.Proofs.Clean
import Stepwise.Token.Scan

/-!
# Accepted programs

A text is accepted if and only if its tokens are those of a well-formed program.

A statement is a phrase as soon as nothing is found in it, and then it changes the open blocks as
the phrase does. The one thing that could go wrong is a statement that is given up without a word,
since a head that is given up opens no block. So it is shown apart that whatever is not all there
is reported.

## Main results

* `Check.exists_phrase_of_statement`, `Check.statement_phrase` — statements in which nothing is
  found are phrases
* `Check.honest_statement` — a statement that is not all there is reported
* `accepts_scan_iff_derives` — the checker accepts exactly the grammar
-/

namespace Stepwise

open Grammar

theorem Token.IsClassified.accepts {t : Token} (ht : t.IsClassified) {text : String}
    {k : Token.Kind} (h : t.lexeme = text) (hk : Token.Kind.ofLexeme text = k) :
    (Wanted.lexeme k text).accepts t = true := by
  rw [Wanted.accepts, ht, h, hk, beq_self_eq_true, beq_self_eq_true, Bool.and_self]

theorem Token.IsClassified.accepts_kind {t : Token} (ht : t.IsClassified) {text : String}
    {k : Token.Kind} (h : t.lexeme = text) (hk : Token.Kind.ofLexeme text = k) :
    (Wanted.kind k).accepts t = true := by
  rw [Wanted.accepts, ht, h, hk, beq_self_eq_true]

namespace Check

open Outcome

variable {tokens rest : List Token} {t : Token} {ts : List Token}

/-! ### Statements -/

theorem header_eq_clean (block : Block) (hc : ∀ t ∈ tokens, t.IsClassified) :
    header Int block tokens = clean rest ↔
      ∃ (left : Left) (run : Run conditionKinds) (right : Right),
        tokens = left.1 :: (run.tokens ++ right.1 :: rest) := by
  rw [header, andThen_eq_clean]
  constructor
  · rintro ⟨mid, hleft, h⟩
    obtain ⟨left, rfl⟩ := expect_eq_clean.mp hleft
    obtain ⟨run, right, rfl⟩ :=
      (condition_eq_clean block fun t ht => hc t (List.mem_cons_of_mem _ ht)).mp h
    exact ⟨left, run, right, rfl⟩
  · rintro ⟨left, run, right, rfl⟩
    exact ⟨_, expect_eq_clean.mpr ⟨left, rfl⟩,
      (condition_eq_clean block fun t ht => hc t (List.mem_cons_of_mem _ ht)).mpr
        ⟨run, right, rfl⟩⟩

theorem capture_eq_clean :
    capture tokens = clean rest ↔
      ∃ (left : Left) (name : Terminal (.kind .identifier)) (right : Right) (stop : Stop),
        tokens = left.1 :: name.1 :: right.1 :: stop.1 :: rest := by
  simp only [capture, andThen_eq_clean, expect_eq_clean, expectTerminator_eq_clean]
  constructor
  · rintro ⟨_, ⟨_, ⟨_, ⟨left, rfl⟩, name, rfl⟩, right, rfl⟩, stop, rfl⟩
    exact ⟨left, name, right, stop, rfl⟩
  · rintro ⟨left, name, right, stop, rfl⟩
    exact ⟨_, ⟨_, ⟨_, ⟨left, rfl⟩, name, rfl⟩, right, rfl⟩, stop, rfl⟩

theorem assignment_eq_clean (hc : ∀ t ∈ tokens, t.IsClassified) :
    assignment Int tokens = clean rest ↔
      ∃ (sign : Terminal (.kind .assign)) (run : Run valueKinds) (stop : Stop),
        tokens = sign.1 :: (run.tokens ++ stop.1 :: rest) := by
  rw [assignment, andThen_assoc, andThen_eq_clean]
  constructor
  · rintro ⟨mid, hsign, h⟩
    obtain ⟨sign, rfl⟩ := expect_eq_clean.mp hsign
    obtain ⟨run, stop, rfl⟩ :=
      (rightSide_eq_clean _ fun t ht => hc t (List.mem_cons_of_mem _ ht)).mp h
    exact ⟨sign, run, stop, rfl⟩
  · rintro ⟨sign, run, stop, rfl⟩
    exact ⟨_, expect_eq_clean.mpr ⟨sign, rfl⟩,
      (rightSide_eq_clean _ fun t ht => hc t (List.mem_cons_of_mem _ ht)).mpr ⟨run, stop, rfl⟩⟩

/-- The further arguments of `write`, if there is a comma in front of them. -/
def further : List Token → Outcome
  | [] => clean []
  | t :: ts => if t.kind = .comma then arguments (Depth.zero : Int) ts else clean (t :: ts)

theorem further_eq_clean (hc : ∀ t ∈ tokens, t.IsClassified) :
    (further tokens).andThen closeWrite = clean rest ↔
      ∃ args right, tokens = Phrase.furtherTokens args ++ (right : Right).1 :: rest := by
  constructor
  · intro h
    cases tokens with
    | nil => cases congrArg complete h
    | cons t ts =>
      rw [further] at h
      split at h
      · next hcomma =>
        obtain ⟨run, right, rfl⟩ :=
          (arguments_eq_clean fun t ht => hc t (List.mem_cons_of_mem _ ht)).mp h
        exact ⟨some (⟨t, beq_iff_eq.mpr hcomma⟩, run), right, rfl⟩
      · obtain ⟨mid, hmid, hclose⟩ := andThen_eq_clean.mp h
        obtain ⟨right, rfl⟩ := closeWrite_eq_clean.mp hclose
        exact ⟨none, right, clean_inj.mp hmid⟩
  · rintro ⟨args, right, rfl⟩
    cases args with
    | none =>
      have hcomma : right.1.kind ≠ .comma := by
        rw [(Token.isParen_iff.mp right.2).1]
        decide
      rw [Phrase.furtherTokens, List.nil_append, further, if_neg hcomma, andThen_eq_clean]
      exact ⟨_, rfl, closeWrite_eq_clean.mpr ⟨right, rfl⟩⟩
    | some args =>
      obtain ⟨comma, run⟩ := args
      rw [Phrase.furtherTokens, List.cons_append, further, if_pos (beq_iff_eq.mp comma.2)]
      exact (arguments_eq_clean fun t ht => hc t (List.mem_cons_of_mem _ ht)).mpr
        ⟨run, right, rfl⟩

theorem write_eq (tokens : List Token) :
    write Int tokens =
      (expect (.lexeme .paren "(") tokens).andThen fun ts =>
        (expect (.kind .string) ts).andThen fun ts =>
          ((further ts).andThen closeWrite).andThen (expectTerminator .unendedWrite) := by
  have hfurther : further = fun
      | [] => ⟨true, [], []⟩
      | t :: ts => if t.kind = .comma then arguments (Depth.zero : Int) ts
        else ⟨true, [], t :: ts⟩ := by
    funext ts
    cases ts <;> rfl
  simp only [← andThen_assoc]
  rw [hfurther]
  rfl

theorem write_eq_clean (hc : ∀ t ∈ tokens, t.IsClassified) :
    write Int tokens = clean rest ↔
      ∃ (left : Left) (text : Terminal (.kind .string)) (args : _) (right : Right) (stop : Stop),
        tokens = left.1 :: text.1 :: (Phrase.furtherTokens args ++ right.1 :: stop.1 :: rest) := by
  rw [write_eq, andThen_eq_clean]
  constructor
  · rintro ⟨_, hleft, h⟩
    obtain ⟨left, rfl⟩ := expect_eq_clean.mp hleft
    obtain ⟨_, htext, hbehind⟩ := andThen_eq_clean.mp h
    obtain ⟨text, rfl⟩ := expect_eq_clean.mp htext
    obtain ⟨_, hfurther, hstop⟩ := andThen_eq_clean.mp hbehind
    obtain ⟨stop, rfl⟩ := expectTerminator_eq_clean.mp hstop
    obtain ⟨args, right, rfl⟩ := (further_eq_clean fun t ht =>
      hc t (List.mem_cons_of_mem _ (List.mem_cons_of_mem _ ht))).mp hfurther
    exact ⟨left, text, args, right, stop, rfl⟩
  · rintro ⟨left, text, args, right, stop, rfl⟩
    refine ⟨_, expect_eq_clean.mpr ⟨left, rfl⟩, andThen_eq_clean.mpr
      ⟨_, expect_eq_clean.mpr ⟨text, rfl⟩, andThen_eq_clean.mpr ⟨_, (further_eq_clean
        fun t ht => hc t (List.mem_cons_of_mem _ (List.mem_cons_of_mem _ ht))).mpr
          ⟨args, right, rfl⟩, expectTerminator_eq_clean.mpr ⟨stop, rfl⟩⟩⟩⟩

section Statement

variable {blocks behind : List Block} {block : Block}

theorem statement_of_if (h : t.isWord "if" = true) :
    statement Int Int blocks t ts =
      let o := (header Int .conditional ts).andThen (expect (.lexeme .keyword "then"))
      (o, if o.complete then .conditional :: blocks else blocks) := by
  rw [statement, if_pos h]

theorem statement_of_while (h : t.isWord "while" = true) :
    statement Int Int blocks t ts =
      (header Int .loop ts,
        if (header Int .loop ts).complete then .loop :: blocks else blocks) := by
  rw [statement, if_neg (Token.not_isWord h (by decide)), if_pos h]

theorem statement_of_endIf (h : t.isWord "end-if" = true) :
    statement Int Int blocks t ts = close .conditional t blocks ts := by
  rw [statement, if_neg (Token.not_isWord h (by decide)), if_neg (Token.not_isWord h (by decide)),
    if_pos h]

theorem statement_of_endWhile (h : t.isWord "end-while" = true) :
    statement Int Int blocks t ts = close .loop t blocks ts := by
  rw [statement, if_neg (Token.not_isWord h (by decide)), if_neg (Token.not_isWord h (by decide)),
    if_neg (Token.not_isWord h (by decide)), if_pos h]

theorem statement_of_write (h : t.isWord "write" = true) :
    statement Int Int blocks t ts = (write Int ts, blocks) := by
  rw [statement, if_neg (Token.not_isWord h (by decide)), if_neg (Token.not_isWord h (by decide)),
    if_neg (Token.not_isWord h (by decide)), if_neg (Token.not_isWord h (by decide)), if_pos h]

theorem statement_of_capture (h : t.isWord "capture" = true) :
    statement Int Int blocks t ts = (capture ts, blocks) := by
  rw [statement, if_neg (Token.not_isWord h (by decide)), if_neg (Token.not_isWord h (by decide)),
    if_neg (Token.not_isWord h (by decide)), if_neg (Token.not_isWord h (by decide)),
    if_neg (Token.not_isWord h (by decide)), if_pos h]

/-- The words with which statements begin. -/
def words : List String := ["if", "while", "end-if", "end-while", "write", "capture"]

theorem statement_of_no_word (h : ∀ word ∈ words, ¬ t.isWord word = true) :
    statement Int Int blocks t ts =
      if t.kind = .identifier then (assignment Int ts, blocks)
      else if t.kind = .terminator then (clean ts, blocks)
      else (⟨true, [faultAt t (.noStatement t.lexeme)], ts⟩, blocks) := by
  simp only [words, List.forall_mem_cons] at h
  obtain ⟨h₁, h₂, h₃, h₄, h₅, h₆, -⟩ := h
  rw [statement, if_neg h₁, if_neg h₂, if_neg h₃, if_neg h₄, if_neg h₅, if_neg h₆]
  rfl

theorem close_eq_clean :
    close block t blocks tokens = (clean rest, behind) ↔
      tokens = rest ∧ blocks = block :: behind := by
  rw [close, clean, Prod.mk.injEq, Outcome.mk.injEq]
  cases blocks with
  | nil => simp
  | cons b blocks => simp [and_assoc, and_comm, and_left_comm]

theorem opened_eq_clean {o : Outcome} :
    (o, if o.complete then block :: blocks else blocks) = (clean rest, behind) ↔
      o = clean rest ∧ block :: blocks = behind := by
  rw [Prod.mk.injEq]
  refine and_congr_right fun ho => ?_
  rw [ho, if_pos (show (clean rest).complete = true from rfl)]

theorem accepts_of_isWord {text : String} {k : Token.Kind} (ht : t.IsClassified)
    (h : t.isWord text = true) (hk : Token.Kind.ofLexeme text = k) :
    (Wanted.lexeme k text).accepts t = true :=
  ht.accepts (Token.isWord_iff.mp h).2 hk

/-- Where nothing is found, the statement is a phrase that fits. -/
theorem exists_phrase_of_statement (hc : ∀ t' ∈ t :: ts, t'.IsClassified)
    (h : statement Int Int blocks t ts = (clean rest, behind)) :
    ∃ p : Phrase, t = p.head ∧ ts = p.tail ++ rest ∧ p.follow blocks = some behind := by
  have ht : t.IsClassified := hc t List.mem_cons_self
  have hts : ∀ t' ∈ ts, t'.IsClassified := fun t' h' => hc t' (List.mem_cons_of_mem _ h')
  by_cases hif : t.isWord "if" = true
  · rw [statement_of_if hif, opened_eq_clean, andThen_eq_clean] at h
    obtain ⟨⟨_, hheader, hnext⟩, rfl⟩ := h
    obtain ⟨next, rfl⟩ := expect_eq_clean.mp hnext
    obtain ⟨left, run, right, rfl⟩ := (header_eq_clean _ hts).mp hheader
    exact ⟨.conditional ⟨t, accepts_of_isWord ht hif (by decide)⟩ left run right next, rfl,
      by simp [Phrase.tail], Phrase.follow_of_opens rfl _⟩
  by_cases hwhile : t.isWord "while" = true
  · rw [statement_of_while hwhile, opened_eq_clean] at h
    obtain ⟨hheader, rfl⟩ := h
    obtain ⟨left, run, right, rfl⟩ := (header_eq_clean _ hts).mp hheader
    exact ⟨.loop ⟨t, accepts_of_isWord ht hwhile (by decide)⟩ left run right, rfl,
      by simp [Phrase.tail], Phrase.follow_of_opens rfl _⟩
  by_cases hendIf : t.isWord "end-if" = true
  · rw [statement_of_endIf hendIf, close_eq_clean] at h
    obtain ⟨rfl, hblocks⟩ := h
    exact ⟨.conditionalEnd ⟨t, accepts_of_isWord ht hendIf (by decide)⟩, rfl, rfl,
      (Phrase.follow_of_closes rfl).mpr hblocks⟩
  by_cases hendWhile : t.isWord "end-while" = true
  · rw [statement_of_endWhile hendWhile, close_eq_clean] at h
    obtain ⟨rfl, hblocks⟩ := h
    exact ⟨.loopEnd ⟨t, accepts_of_isWord ht hendWhile (by decide)⟩, rfl, rfl,
      (Phrase.follow_of_closes rfl).mpr hblocks⟩
  by_cases hwrite : t.isWord "write" = true
  · rw [statement_of_write hwrite, Prod.mk.injEq] at h
    obtain ⟨hclean, rfl⟩ := h
    obtain ⟨left, text, args, right, stop, rfl⟩ := (write_eq_clean hts).mp hclean
    exact ⟨.write ⟨t, accepts_of_isWord ht hwrite (by decide)⟩ left text args right stop, rfl,
      by simp [Phrase.tail], Phrase.follow_of_plain rfl _⟩
  by_cases hcapture : t.isWord "capture" = true
  · rw [statement_of_capture hcapture, Prod.mk.injEq] at h
    obtain ⟨hclean, rfl⟩ := h
    obtain ⟨left, name, right, stop, rfl⟩ := capture_eq_clean.mp hclean
    exact ⟨.capture ⟨t, accepts_of_isWord ht hcapture (by decide)⟩ left name right stop, rfl, rfl,
      Phrase.follow_of_plain rfl _⟩
  rw [statement_of_no_word (by simp [words, *])] at h
  split at h
  · next hname =>
    rw [Prod.mk.injEq] at h
    obtain ⟨hclean, rfl⟩ := h
    obtain ⟨sign, run, stop, rfl⟩ := (assignment_eq_clean hts).mp hclean
    have hloop : t.isLoopWord = false := by simp [Token.isLoopWord, *]
    exact ⟨.assignment ⟨t, hname, hloop⟩ sign run stop, rfl, by simp [Phrase.tail],
      Phrase.follow_of_plain rfl _⟩
  split at h
  · next hstop =>
    rw [Prod.mk.injEq, clean_inj] at h
    obtain ⟨rfl, rfl⟩ := h
    exact ⟨.empty ⟨t, beq_iff_eq.mpr hstop⟩, rfl, rfl, Phrase.follow_of_plain rfl _⟩
  · cases congrArg (fun checked => checked.1.diagnostics) h

/-- A name is none of the words. -/
theorem not_isWord_of_name (target : Name) (hc : target.1.IsClassified) :
    ∀ word ∈ words, ¬ target.1.isWord word = true := by
  have hloop : ∀ word ∈ words, Token.Kind.ofLexeme word = .identifier →
      word = "while" ∨ word = "end-while" := by decide
  intro word hmem hword
  have hkind := (hc.kind_of_isWord hword).symm.trans target.2.1
  refine Bool.eq_false_iff.mp target.2.2 (Token.isLoopWord_iff.mpr ?_)
  rcases hloop word hmem hkind with rfl | rfl
  · exact .inl hword
  · exact .inr hword

/-- A phrase that fits is a statement in which nothing is found. -/
theorem statement_phrase {p : Phrase} (hc : ∀ t ∈ p.head :: (p.tail ++ rest), t.IsClassified)
    (h : p.follow blocks = some behind) :
    statement Int Int blocks p.head (p.tail ++ rest) = (clean rest, behind) := by
  have hhead : p.head.IsClassified := hc _ List.mem_cons_self
  have htail : ∀ t ∈ p.tail ++ rest, t.IsClassified := fun t ht => hc t (List.mem_cons_of_mem _ ht)
  cases p with
  | empty stop =>
    have hk := stop.kind_eq
    cases h
    rw [Phrase.head, statement_of_no_word, hk, if_neg (by decide), if_pos rfl]
    · rfl
    · intro word _
      exact Bool.eq_false_iff.mp (Token.not_isWord_of_kind hk (by decide))
  | assignment target sign value stop =>
    cases h
    have hclean : assignment Int (Phrase.tail (.assignment target sign value stop) ++ rest) =
        clean rest :=
      (assignment_eq_clean htail).mpr ⟨sign, value, stop, by simp [Phrase.tail]⟩
    rw [Phrase.head, statement_of_no_word (not_isWord_of_name target hhead), if_pos target.2.1,
      hclean]
  | write word left text args right stop =>
    cases h
    have hclean : write Int (Phrase.tail (.write word left text args right stop) ++ rest) =
        clean rest :=
      (write_eq_clean htail).mpr ⟨left, text, args, right, stop, by simp [Phrase.tail]⟩
    rw [Phrase.head, statement_of_write (word.isWord (.inl rfl)), hclean]
  | capture word left name right stop =>
    cases h
    have hclean : capture (Phrase.tail (.capture word left name right stop) ++ rest) =
        clean rest :=
      capture_eq_clean.mpr ⟨left, name, right, stop, rfl⟩
    rw [Phrase.head, statement_of_capture (word.isWord (.inl rfl)), hclean]
  | conditional word left condition right next =>
    cases h
    have hclean : header Int .conditional
        (Phrase.tail (.conditional word left condition right next) ++ rest) =
        clean (next.1 :: rest) :=
      (header_eq_clean _ htail).mpr ⟨left, condition, right, by simp [Phrase.tail]⟩
    rw [Phrase.head, statement_of_if (word.isWord (.inl rfl)), opened_eq_clean,
      andThen_eq_clean]
    exact ⟨⟨_, hclean, expect_eq_clean.mpr ⟨next, rfl⟩⟩, rfl⟩
  | conditionalEnd word =>
    rw [Phrase.head, statement_of_endIf (word.isWord (.inl rfl)), close_eq_clean]
    exact ⟨rfl, (Phrase.follow_of_closes rfl).mp h⟩
  | loop word left condition right =>
    cases h
    rw [Phrase.head, statement_of_while (word.isWord (.inr rfl)), opened_eq_clean]
    exact ⟨(header_eq_clean _ htail).mpr ⟨left, condition, right, by simp [Phrase.tail]⟩, rfl⟩
  | loopEnd word =>
    rw [Phrase.head, statement_of_endWhile (word.isWord (.inr rfl)), close_eq_clean]
    exact ⟨rfl, (Phrase.follow_of_closes rfl).mp h⟩

end Statement

/-! ### Nothing is abandoned in silence -/

theorem honest_ite {c : Prop} [Decidable c] {o o' : Outcome} (h : o.Honest) (h' : o'.Honest) :
    (if c then o else o').Honest := by
  split
  · exact h
  · exact h'

theorem honest_expect (w : Wanted) (tokens : List Token) : (expect w tokens).Honest := by
  cases tokens with
  | nil => exact honest_of_diagnostics_ne (List.cons_ne_nil _ _)
  | cons t ts =>
    exact honest_ite (honest_of_complete rfl) (honest_of_diagnostics_ne (List.cons_ne_nil _ _))

theorem honest_closeWrite (tokens : List Token) : (closeWrite tokens).Honest := by
  cases tokens with
  | nil => exact honest_of_diagnostics_ne (List.cons_ne_nil _ _)
  | cons t ts =>
    exact honest_ite (honest_of_complete rfl) (honest_of_diagnostics_ne (List.cons_ne_nil _ _))

theorem honest_expectTerminator (f : Fault) (tokens : List Token) :
    (expectTerminator f tokens).Honest := by
  cases tokens with
  | nil => exact honest_of_complete rfl
  | cons t ts => exact honest_ite (honest_of_complete rfl) (honest_of_complete rfl)

theorem honest_condition (block : Block) (depth : Int) (tokens : List Token) :
    (condition block depth tokens).Honest := by
  induction tokens generalizing depth with
  | nil => exact honest_of_diagnostics_ne (List.cons_ne_nil _ _)
  | cons t ts ih =>
    rw [condition]
    split
    · exact honest_ite (honest_of_complete rfl) (ih _)
    · exact ih _
    · exact ih _
    · exact ih _
    · exact ih _
    · exact (ih _).report _

theorem honest_arguments (depth : Int) (tokens : List Token) :
    (arguments depth tokens).Honest := by
  induction tokens generalizing depth with
  | nil => exact honest_of_complete rfl
  | cons t ts ih =>
    rw [arguments]
    refine honest_ite (honest_of_complete rfl) ?_
    split
    · exact ih _
    · exact ih _
    · exact ih _
    · exact ih _
    · exact ih _
    · exact (ih _).report _

theorem honest_rightSide (depth : Int) (tokens : List Token) :
    (rightSide depth tokens).Honest := by
  induction tokens generalizing depth with
  | nil => exact honest_of_complete rfl
  | cons t ts ih =>
    rw [rightSide]
    split
    · exact honest_of_complete rfl
    · exact honest_ite (honest_of_complete rfl) (ih _)
    · exact ih _
    · exact ih _
    · exact ih _
    · exact ih _
    · exact (ih _).report _

theorem honest_further (tokens : List Token) : (further tokens).Honest := by
  cases tokens with
  | nil => exact honest_of_complete rfl
  | cons t ts => exact honest_ite (honest_arguments _ _) (honest_of_complete rfl)

/-- A statement that is not all there is reported. -/
theorem honest_statement (blocks : List Block) (t : Token) (ts : List Token) :
    (statement Int Int blocks t ts).1.Honest := by
  have hheader : ∀ block, (header Int block ts).Honest := fun block =>
    (honest_expect _ _).andThen (honest_condition block _)
  rw [statement]
  split
  · exact (hheader _).andThen (honest_expect _)
  split
  · exact hheader _
  split
  · exact honest_of_complete rfl
  split
  · exact honest_of_complete rfl
  split
  · show (write Int ts).Honest
    rw [write_eq]
    exact (honest_expect _ _).andThen fun ts => (honest_expect _ _).andThen fun ts =>
      ((honest_further ts).andThen honest_closeWrite).andThen (honest_expectTerminator _)
  split
  · exact (((honest_expect _ _).andThen (honest_expect _)).andThen (honest_expect _)).andThen
      (honest_expectTerminator _)
  split
  · exact ((honest_expect _ _).andThen (honest_rightSide _)).andThen (honest_expectTerminator _)
  split
  · exact honest_of_complete rfl
  · exact honest_of_complete rfl

/-! ### Programs -/

/-- Nothing is found in a list of tokens inside open blocks if and only if they are the tokens of
phrases that close those blocks. -/
theorem program_eq_nil_iff {blocks : List Block} (hc : ∀ t ∈ tokens, t.IsClassified) :
    program Int Int blocks tokens = [] ↔
      ∃ phrases : List Phrase, phrases.foldlM Phrase.follow blocks = some [] ∧
        phrases.flatMap Phrase.tokens = tokens := by
  induction hn : tokens.length using Nat.strongRecOn generalizing tokens blocks with
  | ind n ih =>
    subst hn
    cases tokens with
    | nil =>
      rw [program_nil]
      constructor
      · intro h
        cases blocks with
        | nil => exact ⟨[], rfl, rfl⟩
        | cons block blocks => cases h
      · rintro ⟨phrases, hfold, hflat⟩
        cases phrases with
        | nil =>
          cases hfold
          rfl
        | cons p phrases => cases hflat
    | cons t ts =>
      rw [program_cons, List.append_eq_nil_iff, (honest_statement _ _ _).diagnostics_eq_nil_iff]
      constructor
      · rintro ⟨hclean, hprogram⟩
        obtain ⟨p, hhead, htail, hfollow⟩ := exists_phrase_of_statement hc (Prod.ext hclean rfl)
        have hsuffix := statement_suffix Int Int blocks t ts
        obtain ⟨phrases, hfold, hflat⟩ := (ih _ (Nat.lt_succ_of_le hsuffix.length_le)
          (fun t' h' => hc t' (List.mem_cons_of_mem _ (hsuffix.subset h'))) rfl).mp hprogram
        refine ⟨p :: phrases, ?_, ?_⟩
        · rw [List.foldlM_cons, hfollow, Option.bind_eq_bind, Option.bind_some, hfold]
        · rw [List.flatMap_cons, hflat, Phrase.tokens, List.cons_append, ← htail, ← hhead]
      · rintro ⟨phrases, hfold, hflat⟩
        cases phrases with
        | nil => cases hflat
        | cons p phrases =>
          rw [List.foldlM_cons, Option.bind_eq_bind, Option.bind_eq_some_iff] at hfold
          obtain ⟨behind, hfollow, hfold⟩ := hfold
          rw [List.flatMap_cons, Phrase.tokens, List.cons_append, List.cons.injEq] at hflat
          obtain ⟨rfl, rfl⟩ := hflat
          have hrest : (phrases.flatMap Phrase.tokens).length ≤
              (p.tail ++ phrases.flatMap Phrase.tokens).length := by
            rw [List.length_append]
            omega
          rw [statement_phrase hc hfollow]
          refine ⟨rfl, (ih _ (Nat.lt_succ_of_le hrest) (fun t' h' => ?_) rfl).mpr
            ⟨phrases, hfold, rfl⟩⟩
          exact hc t' (List.mem_cons_of_mem _ (List.mem_append_right _ h'))

end Check

/-- **The checker accepts exactly the grammar.** -/
theorem accepts_scan_iff_derives (text : String) :
    accepts (Token.scan text) = true ↔ Grammar.Derives (Token.scan text) := by
  rw [accepts_iff, validate, validateIn,
    Check.program_eq_nil_iff fun t ht => Token.isClassified_of_mem_scan ht]
  refine exists_congr fun phrases => and_congr_left fun _ => ?_
  exact nested_iff_foldlM.symm

end Stepwise
