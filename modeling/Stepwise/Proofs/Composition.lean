import Stepwise.Proofs.Agreement

/-!
# What stands behind an accepted text

Where an accepted text ends, nothing is left over from it. The checker has not looked past its end,
no block is open, and no parenthesis is counted. So whatever follows, broken or not, is checked as
if it stood alone. The reader is in the same position: it has read the clauses of the phrases and
passed over what they left. Two programs that are read one behind the other are two programs, with
the heads of the second pointing further by the length of the first.

Neither half is obvious from the way the two work. Both look at the token behind the one they are
at, and both go on where something is wrong. For the checker the reason is that a piece in which
nothing was found has seen the token that ends it. A piece that comes to the end of the text has
either not ended or is followed by one that asks for a token. That is `Check.Settled`, and it is
kept by chains of pieces.

## Main definitions

* `Check.Settled` — a piece that does not look behind what it has read

## Main results

* `Check.program_append` — behind what is accepted, the rest is checked as if it stood alone
* `Program.ofStmts_append` — the program of two lists of statements
* `append_of_accepts` — accepted fronts compose, for the checker and for the reader
-/

namespace Stepwise

open Grammar

namespace Check

open Outcome

variable {check next : List Token → Outcome} {t : Token} {ts rest : List Token}

/-- Where nothing is found in a piece, nothing is found in it whatever follows, and what follows is
left. -/
def Settled (check : List Token → Outcome) : Prop :=
  ∀ tokens rest, check tokens = clean rest →
    ∀ behind, check (tokens ++ behind) = clean (rest ++ behind)

theorem Settled.andThen (h : Settled check) (hnext : Settled next) :
    Settled fun ts => (check ts).andThen next := by
  intro tokens rest hclean behind
  obtain ⟨mid, hmid, hrest⟩ := andThen_eq_clean.mp hclean
  exact andThen_eq_clean.mpr ⟨mid ++ behind, h tokens mid hmid behind, hnext mid rest hrest behind⟩

/-! ### Pieces -/

theorem settled_expect (w : Wanted) : Settled (expect w) := by
  intro tokens rest h behind
  obtain ⟨wanted, rfl⟩ := expect_eq_clean.mp h
  exact expect_eq_clean.mpr ⟨wanted, rfl⟩

theorem settled_expectTerminator (f : Fault) : Settled (expectTerminator f) := by
  intro tokens rest h behind
  obtain ⟨stop, rfl⟩ := expectTerminator_eq_clean.mp h
  exact expectTerminator_eq_clean.mpr ⟨stop, rfl⟩

theorem settled_closeWrite : Settled closeWrite := by
  intro tokens rest h behind
  obtain ⟨right, rfl⟩ := closeWrite_eq_clean.mp h
  exact closeWrite_eq_clean.mpr ⟨right, rfl⟩

/-- A run is settled if the end of the text does not end it, and if at every token it goes on, ends
behind the token, or has found something, whatever follows. -/
theorem settled_of_step {run : Int → List Token → Outcome}
    (hnil : ∀ depth rest, run depth [] ≠ clean rest)
    (hstep : ∀ depth t, (∃ depth', ∀ ts, run depth (t :: ts) = run depth' ts) ∨
      (∀ ts, run depth (t :: ts) = clean ts) ∨ ∀ ts rest, run depth (t :: ts) ≠ clean rest) :
    ∀ depth, Settled (run depth) := by
  intro depth tokens
  induction tokens generalizing depth with
  | nil =>
    intro rest h
    exact absurd h (hnil depth rest)
  | cons t ts ih =>
    intro rest h behind
    rcases hstep depth t with ⟨depth', hgoes⟩ | hends | hfound
    · rw [hgoes] at h
      rw [List.cons_append, hgoes, ih depth' rest h behind]
    · rw [hends, clean_inj] at h
      rw [List.cons_append, hends, h]
    · exact absurd h (hfound ts rest)

theorem report_cons_ne_clean (d : Diagnostic) (ds : List Diagnostic) (o : Outcome) :
    o.report (d :: ds) ≠ clean rest := by
  intro h
  cases (report_eq_clean.mp h).1

theorem settled_condition (block : Block) : ∀ depth : Int, Settled (condition block depth) := by
  refine settled_of_step (fun depth rest h => ?_) fun depth t => ?_
  · cases congrArg complete h
  by_cases hparen : t.kind = .paren
  · by_cases hzero : Depth.isZero (depthAfter t depth) = true
    · exact .inr (.inl fun ts => by rw [condition_of_paren block hparen, if_pos hzero])
    · exact .inl ⟨_, fun ts => by rw [condition_of_paren block hparen, if_neg hzero]⟩
  by_cases hkind : t.kind ∈ conditionKinds
  · exact .inl ⟨depth, fun ts => condition_of_mem block hkind⟩
  · refine .inr (.inr fun ts rest h => ?_)
    rw [condition_of_notMem block hparen hkind] at h
    exact report_cons_ne_clean _ _ _ h

/-- The further arguments of `write` are settled together with the parenthesis behind them. -/
theorem settled_arguments : ∀ depth : Int,
    Settled fun ts => (arguments depth ts).andThen closeWrite := by
  refine settled_of_step (fun depth rest h => ?_) fun depth t => ?_
  · cases congrArg complete h
  have hfound : t.kind ≠ .paren → t.kind ∉ argumentKinds →
      ∀ ts rest, (arguments depth (t :: ts)).andThen closeWrite ≠ clean rest := by
    intro hparen hkind ts rest h
    by_cases hstop : t.kind = .terminator
    · rw [arguments_of_terminator hstop, andThen_of_complete rfl, report_eq_clean] at h
      obtain ⟨right, hright⟩ := closeWrite_eq_clean.mp h.2
      rw [(List.cons.inj hright).1] at hparen
      exact hparen right.kind_lexeme.1
    · rw [arguments_of_notMem hparen hstop hkind, report_andThen] at h
      exact report_cons_ne_clean _ _ _ h
  by_cases hparen : t.kind = .paren
  · by_cases hclose : depth = 0 ∧ t.isParen ")" = true
    · obtain ⟨rfl, hright⟩ := hclose
      refine .inr (.inl fun ts => ?_)
      rw [arguments_of_closes hright, andThen_eq_clean]
      exact ⟨_, rfl, closeWrite_eq_clean.mpr ⟨⟨t, hright⟩, rfl⟩⟩
    · refine .inl ⟨depthAfter t depth, fun ts => ?_⟩
      rw [arguments_of_paren hparen fun hzero hright =>
        hclose ⟨(Depth.isZero_int depth).mp hzero, hright⟩]
  by_cases hkind : t.kind ∈ argumentKinds
  · exact .inl ⟨depth, fun ts => by rw [arguments_of_mem hkind]⟩
  · exact .inr (.inr (hfound hparen hkind))

/-- The right side of an assignment is settled together with the end of the statement. -/
theorem settled_rightSide (f : Fault) : ∀ depth : Int,
    Settled fun ts => (rightSide depth ts).andThen (expectTerminator f) := by
  refine settled_of_step (fun depth rest h => ?_) fun depth t => ?_
  · obtain ⟨mid, hmid, hend⟩ := andThen_eq_clean.mp h
    obtain ⟨stop, rfl⟩ := expectTerminator_eq_clean.mp hend
    cases congrArg Outcome.rest hmid
  by_cases hstop : t.kind = .terminator
  · by_cases hopen : depth ≤ 0
    · refine .inr (.inl fun ts => ?_)
      rw [rightSide_of_terminator hstop, openAssignment_eq_nil.mpr hopen, andThen_eq_clean]
      exact ⟨_, rfl, expectTerminator_eq_clean.mpr ⟨⟨t, beq_iff_eq.mpr hstop⟩, rfl⟩⟩
    · refine .inr (.inr fun ts rest h => hopen ?_)
      rw [rightSide_of_terminator hstop] at h
      obtain ⟨mid, hmid, -⟩ := andThen_eq_clean.mp h
      exact openAssignment_eq_nil.mp (congrArg diagnostics hmid)
  by_cases hparen : t.kind = .paren
  · by_cases hneg : Depth.sign (depthAfter t depth) = .lt
    · refine .inr (.inr fun ts rest h => ?_)
      rw [rightSide_of_paren hparen, if_pos hneg] at h
      obtain ⟨mid, hmid, -⟩ := andThen_eq_clean.mp h
      cases congrArg diagnostics hmid
    · exact .inl ⟨_, fun ts => by rw [rightSide_of_paren hparen, if_neg hneg]⟩
  by_cases hkind : t.kind ∈ valueKinds
  · exact .inl ⟨depth, fun ts => by rw [rightSide_of_mem hkind]⟩
  · refine .inr (.inr fun ts rest h => ?_)
    rw [rightSide_of_notMem hparen hstop hkind, report_andThen] at h
    exact report_cons_ne_clean _ _ _ h

/-! ### Statements -/

theorem settled_header (block : Block) : Settled (header Int block) :=
  (settled_expect _).andThen (settled_condition block _)

theorem settled_capture : Settled capture :=
  (((settled_expect _).andThen (settled_expect _)).andThen (settled_expect _)).andThen
    (settled_expectTerminator _)

theorem settled_assignment : Settled (assignment Int) := by
  have h := (settled_expect (.kind .assign)).andThen (settled_rightSide .unendedAssignment 0)
  intro tokens rest hclean behind
  rw [assignment, andThen_assoc] at hclean ⊢
  exact h tokens rest hclean behind

theorem settled_further : Settled fun ts => (further ts).andThen closeWrite := by
  intro tokens rest h behind
  cases tokens with
  | nil => cases congrArg complete h
  | cons t ts =>
    by_cases hcomma : t.kind = .comma
    · simp only [List.cons_append, further, if_pos hcomma] at h ⊢
      exact settled_arguments _ ts rest h behind
    · simp only [List.cons_append, further, if_neg hcomma] at h ⊢
      exact settled_closeWrite (t :: ts) rest h behind

theorem settled_write : Settled (write Int) := by
  have h := (settled_expect (.lexeme .paren "(")).andThen ((settled_expect (.kind .string)).andThen
    (settled_further.andThen (settled_expectTerminator .unendedWrite)))
  intro tokens rest hclean behind
  rw [write_eq] at hclean ⊢
  exact h tokens rest hclean behind

/-- A statement in which nothing is found is the same statement whatever follows it. -/
theorem statement_append {blocks blocks' : List Block}
    (h : statement Int Int blocks t ts = (clean rest, blocks')) (behind : List Token) :
    statement Int Int blocks t (ts ++ behind) = (clean (rest ++ behind), blocks') := by
  by_cases hif : t.isWord "if" = true
  · have hhead := (settled_header .conditional).andThen (settled_expect (.lexeme .keyword "then"))
    rw [statement_of_if hif, opened_eq_clean] at h ⊢
    exact ⟨hhead ts rest h.1 behind, h.2⟩
  by_cases hwhile : t.isWord "while" = true
  · rw [statement_of_while hwhile, opened_eq_clean] at h ⊢
    exact ⟨settled_header .loop ts rest h.1 behind, h.2⟩
  by_cases hendIf : t.isWord "end-if" = true
  · rw [statement_of_endIf hendIf, close_eq_clean] at h ⊢
    exact ⟨by rw [h.1], h.2⟩
  by_cases hendWhile : t.isWord "end-while" = true
  · rw [statement_of_endWhile hendWhile, close_eq_clean] at h ⊢
    exact ⟨by rw [h.1], h.2⟩
  by_cases hwrite : t.isWord "write" = true
  · rw [statement_of_write hwrite, Prod.mk.injEq] at h ⊢
    exact ⟨settled_write ts rest h.1 behind, h.2⟩
  by_cases hcapture : t.isWord "capture" = true
  · rw [statement_of_capture hcapture, Prod.mk.injEq] at h ⊢
    exact ⟨settled_capture ts rest h.1 behind, h.2⟩
  rw [statement_of_no_word (by simp [words, *])] at h ⊢
  split at h
  · next hname =>
    rw [Prod.mk.injEq] at h
    rw [if_pos hname, Prod.mk.injEq]
    exact ⟨settled_assignment ts rest h.1 behind, h.2⟩
  next hname =>
  split at h
  · next hstop =>
    rw [Prod.mk.injEq, clean_inj] at h
    rw [if_neg hname, if_pos hstop, h.1, h.2]
  · cases congrArg (fun checked => checked.1.diagnostics) h

/-- **Behind what is accepted, the rest is checked as if it stood alone.** -/
theorem program_append {blocks : List Block} {front : List Token}
    (h : program Int Int blocks front = []) (rest : List Token) :
    program Int Int blocks (front ++ rest) = program Int Int [] rest := by
  induction blocks, front using program.induct Int Int with
  | case1 => rfl
  | case2 block blocks =>
    rw [program_nil] at h
    cases h
  | case3 blocks t ts checked ih =>
    rw [program_cons, List.append_eq_nil_iff, (honest_statement _ _ _).diagnostics_eq_nil_iff] at h
    obtain ⟨hclean, hprogram⟩ := h
    have hstatement := statement_append (Prod.ext hclean rfl) rest
    rw [List.cons_append, program_cons, hstatement]
    exact ih hprogram

end Check

/-! ### Programs -/

/-- The program of two lists of statements is that of the first and that of the second, with its
heads pointing further by the length of the first. -/
theorem Program.ofStmts_append (stmts others : List Stmt) :
    ofStmts (stmts ++ others) =
      ofStmts stmts ++ (ofStmts others).map (Instruction.shift (ofStmts stmts).length) := by
  rw [ofStmts_eq_placed, ofStmts_eq_placed, ofStmts_eq_placed, placed_append, length_placed,
    ← placed_add, Nat.zero_add, Nat.add_zero]

namespace Grammar

variable {phrases : List Phrase}

/-- The statements of nested phrases stand in front of those of the clauses that follow. -/
theorem Nested.ofClauses_append (h : Nested phrases) (rest : List Clause) :
    Stmt.ofClauses (clauses phrases ++ rest) =
      Stmt.ofClauses (clauses phrases) ++ Stmt.ofClauses rest := by
  obtain ⟨stmts, -, hparts⟩ := h.exists_stmts
  have hbefore : ∀ others, Stmt.ofClauses (clauses phrases ++ others) =
      stmts ++ Stmt.ofClauses others := by
    intro others
    rw [Stmt.ofClauses, hparts, Stmt.ofClauses, ← List.append_assoc]
  have halone := hbefore []
  rw [List.append_nil, show Stmt.ofClauses [] = [] from rfl, List.append_nil] at halone
  rw [hbefore, halone]

/-- The statements of nested phrases are read in front of whatever follows them. -/
theorem Nested.ofTokens_append (h : Nested phrases)
    (hc : ∀ p ∈ phrases, ∀ t ∈ p.tokens, t.IsClassified)
    (hloop : ∀ p ∈ phrases, ∀ t ∈ p.tail, t.isLoopWord = false) (rest : List Token) :
    Stmt.ofTokens (phrases.flatMap Phrase.tokens ++ rest) =
      Stmt.ofTokens (phrases.flatMap Phrase.tokens) ++ Stmt.ofTokens rest := by
  rw [Stmt.ofTokens, Stmt.ofTokensIn, Clause.ofTokens_flatMap_append hc hloop,
    h.ofClauses_append, ← Clause.ofTokens_flatMap hc hloop]
  rfl

end Grammar

/-- **Accepted fronts compose.** What stands behind an accepted list of tokens is checked as if it
stood alone. If the list is that of a text in which the words of loops stand only at the head of
statements, then what stands behind it is read as if it stood alone, too: the statements follow
those of the text, and the program follows that of the text, with its heads pointing further by the
length of that. -/
theorem append_of_accepts {front : List Token} (h : accepts front = true) (rest : List Token) :
    validate (front ++ rest) = validate rest ∧
      ∀ text, front = Token.scan text → Check.LoopWordsLead front →
        Stmt.ofTokens (front ++ rest) = Stmt.ofTokens front ++ Stmt.ofTokens rest ∧
          Program.ofTokens (front ++ rest) =
            Program.ofTokens front ++
              (Program.ofTokens rest).map (Instruction.shift (Program.ofTokens front).length) := by
  refine ⟨Check.program_append ((accepts_iff front).mp h) rest, ?_⟩
  rintro text rfl hlead
  obtain ⟨phrases, hnested, hflat, hsegments, hc⟩ := Check.exists_phrases_of_accepts h
  have hstmts := hnested.ofTokens_append hc (hlead.tail hsegments) rest
  rw [hflat] at hstmts
  refine ⟨hstmts, ?_⟩
  rw [Program.ofTokens_eq, hstmts, Program.ofStmts_append, Program.ofTokens_eq,
    Program.ofTokens_eq]

/-- A loop, in the head of which the reader stops early, and behind it tokens with something wrong
in every statement. -/
theorem append_of_accepts_broken_rest :
    accepts (Token.scan "while ((x) < 2 (3)) x = 1 :: end-while") = true ∧
      Check.LoopWordsLead (Token.scan "while ((x) < 2 (3)) x = 1 :: end-while") ∧
      validate (Token.scan ") while (y y = (1 end-if write") ≠ [] ∧
      validate (Token.scan "while ((x) < 2 (3)) x = 1 :: end-while" ++
          Token.scan ") while (y y = (1 end-if write") =
        validate (Token.scan ") while (y y = (1 end-if write") ∧
      Stmt.ofTokens (Token.scan "while ((x) < 2 (3)) x = 1 :: end-while" ++
          Token.scan ") while (y y = (1 end-if write") =
        Stmt.ofTokens (Token.scan "while ((x) < 2 (3)) x = 1 :: end-while") ++
          Stmt.ofTokens (Token.scan ") while (y y = (1 end-if write") ∧
      Program.ofTokens (Token.scan "while ((x) < 2 (3)) x = 1 :: end-while" ++
          Token.scan ") while (y y = (1 end-if write") =
        Program.ofTokens (Token.scan "while ((x) < 2 (3)) x = 1 :: end-while") ++
          (Program.ofTokens (Token.scan ") while (y y = (1 end-if write")).map (Instruction.shift
            (Program.ofTokens (Token.scan "while ((x) < 2 (3)) x = 1 :: end-while")).length) := by
  have haccepts : accepts (Token.scan "while ((x) < 2 (3)) x = 1 :: end-while") = true := by
    decide +kernel
  have hlead : Check.LoopWordsLead (Token.scan "while ((x) < 2 (3)) x = 1 :: end-while") := by
    decide +kernel
  obtain ⟨hvalidate, hreads⟩ := append_of_accepts haccepts
    (Token.scan ") while (y y = (1 end-if write")
  exact ⟨haccepts, hlead, by decide +kernel, hvalidate, hreads _ rfl hlead⟩

end Stepwise
