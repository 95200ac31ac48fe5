import Stepwise.Proofs.LoopWords

/-!
# When the words of loops are reserved

The clauses of loops are the words of loops, for any tokens. The second pass keeps all of them that
open a loop and gives each its own end. So the number of loops is right whatever the text is, and
the number of ends is the number of loops, even where the text closes fewer of them or more.

In an accepted text the words are where they belong as long as none of them is an operand, and then
the numbers are right as well. The checker does not look for them among the operands: `x = while ::`
is accepted, and its program is a loop that the text never closes.

## Main definitions

* `Grammar.Phrase.operands` — the tokens of a phrase that its grammar leaves open
* `LoopWordsReserved` — the words of loops begin loops and end them, and do nothing else

## Main results

* `Program.countP_isLoop_ofTokens`, `Program.countP_isLoopEnd_ofTokens` — how many heads and ends
  of loops a program has
* `loopWordsReserved_iff` — the words of loops are reserved if and only if none is an operand
-/

namespace Stepwise

open Grammar

/-- Whether an instruction is the end of a loop. -/
def Instruction.isLoopEnd : Instruction → Bool
  | .loopEnd => true
  | _ => false

namespace Clause

/-- Whether a clause is the head of a loop. -/
def isLoop (c : Clause) : Bool := c.word? == some "while"

/-- Whether a clause is the end of a loop. -/
def isLoopEnd (c : Clause) : Bool := c.word? == some "end-while"

theorem isLoop_comp_clause : isLoop ∘ Instruction.clause = Instruction.isLoop := by
  funext i
  cases i <;> rfl

theorem isLoopEnd_comp_clause : isLoopEnd ∘ Instruction.clause = Instruction.isLoopEnd := by
  funext i
  cases i <;> rfl

/-- As many clauses begin with a word of a loop as there are tokens of it. -/
theorem countP_word?_ofTokens {word : String} (hword : word = "while" ∨ word = "end-while")
    (tokens : List Token) :
    (ofTokens Int tokens).countP (fun c => c.word? == some word) =
      tokens.countP fun t => t.isWord word := by
  have hclauses : (fun c : Clause => c.word? == some word) =
      fun c => ((c.word?).map (· == word)).getD false := by
    funext c
    cases c.word? with
    | none => rfl
    | some w => rfl
  have htokens : (fun t : Token => t.isWord word) =
      fun t => ((· == word) ∘ Token.lexeme) t && t.isLoopWord := by
    funext t
    rw [Bool.eq_iff_iff, Bool.and_eq_true, Function.comp_apply, beq_iff_eq, Token.isLoopWord_iff]
    constructor
    · intro h
      refine ⟨(Token.isWord_iff.mp h).2, ?_⟩
      rcases hword with rfl | rfl
      · exact .inl h
      · exact .inr h
    · rintro ⟨hlexeme, hwhile | hend⟩
      · exact Token.isWord_iff.mpr ⟨(Token.isWord_iff.mp hwhile).1, hlexeme⟩
      · exact Token.isWord_iff.mpr ⟨(Token.isWord_iff.mp hend).1, hlexeme⟩
  rw [hclauses, ← List.countP_filterMap, filterMap_word?_ofTokens, List.countP_map, htokens,
    List.countP_filter]

end Clause

/-! ### Heads and ends of loops -/

/-- Every loop has an end of its own. -/
theorem Instruction.countP_isLoopEnd_ofStmts (stmts : List Stmt) :
    (ofStmts stmts).countP isLoopEnd = (ofStmts stmts).countP isLoop := by
  induction stmts using Stmt.list_induction with
  | nil => rw [ofStmts_nil, List.countP_nil, List.countP_nil]
  | assign target value rest ih =>
    rw [ofStmts_assign, List.countP_cons, List.countP_cons, ih]
    rfl
  | write args rest ih =>
    rw [ofStmts_write, List.countP_cons, List.countP_cons, ih]
    rfl
  | loop condition body rest ihbody ihrest =>
    rw [ofStmts_loop, List.countP_cons, List.countP_cons, List.countP_append, List.countP_append,
      List.countP_cons, List.countP_cons, ihbody, ihrest,
      show isLoop (.loop condition 0) = true from rfl, show isLoop .loopEnd = false from rfl,
      show isLoopEnd (.loop condition 0) = false from rfl, show isLoopEnd .loopEnd = true from rfl,
      if_pos rfl, if_neg Bool.false_ne_true]
    omega

namespace Stmt

/-- The second pass keeps every clause that opens a loop. -/
theorem countP_isLoop_ofClauses (clauses : List Clause) :
    (Instruction.ofStmts (ofClauses clauses)).countP Instruction.isLoop =
      clauses.countP Clause.isLoop := by
  induction clauses with
  | nil => rfl
  | cons c clauses ih =>
    rw [List.countP_cons, ← ih]
    cases c with
    | assign target value =>
      rw [ofClauses_assign, Instruction.ofStmts_assign, List.countP_cons]
      rfl
    | write args =>
      rw [ofClauses_write, Instruction.ofStmts_write, List.countP_cons]
      rfl
    | loopEnd =>
      rw [ofClauses_loopEnd]
      rfl
    | loop condition =>
      obtain ⟨body, behind, hrest, hloop⟩ := ofClauses_loop condition clauses
      rw [hloop, hrest, Instruction.ofStmts_loop, Instruction.ofStmts_append, List.countP_cons,
        List.countP_append, List.countP_append, List.countP_cons]
      rfl

end Stmt

namespace Program

/-- A program has as many heads of loops as its text has words that begin loops. -/
theorem countP_isLoop_ofTokens (tokens : List Token) :
    (ofTokens tokens).countP Instruction.isLoop = tokens.countP fun t => t.isWord "while" := by
  rw [← Clause.countP_word?_ofTokens (.inl rfl), ← Clause.isLoop_comp_clause, ← List.countP_map,
    ofTokens_eq, ofStmts, map_clause_link, List.countP_map, Clause.isLoop_comp_clause,
    Stmt.ofTokens, Stmt.ofTokensIn, Stmt.countP_isLoop_ofClauses]
  rfl

/-- A program has as many ends of loops as it has heads. -/
theorem countP_isLoopEnd_ofTokens (tokens : List Token) :
    (ofTokens tokens).countP Instruction.isLoopEnd =
      (ofTokens tokens).countP Instruction.isLoop := by
  rw [← Clause.isLoop_comp_clause, ← Clause.isLoopEnd_comp_clause, ← List.countP_map,
    ← List.countP_map, ofTokens_eq, ofStmts, map_clause_link, List.countP_map, List.countP_map,
    Clause.isLoop_comp_clause, Clause.isLoopEnd_comp_clause,
    Instruction.countP_isLoopEnd_ofStmts]

end Program

/-! ### Operands -/

/-- The tokens of a phrase that its grammar leaves open: those of conditions, right sides and
arguments, and the name behind `capture`. -/
def Grammar.Phrase.operands : Phrase → List Token
  | .assignment _ _ value _ => value.tokens
  | .write _ _ _ further _ _ => Phrase.furtherTokens further
  | .capture _ _ name _ _ => [name.1]
  | .conditional _ _ condition _ _ => condition.tokens
  | .loop _ _ condition _ => condition.tokens
  | _ => []

namespace Grammar.Phrase

/-- A word of a loop behind the first token of a phrase is an operand. -/
theorem forall_mem_tail_iff (p : Phrase) :
    (∀ t ∈ p.tail, t.isLoopWord = false) ↔ ∀ t ∈ p.operands, t.isLoopWord = false := by
  have hleft : ∀ left : Left, left.1.isLoopWord = false := fun left =>
    Token.not_isLoopWord_of_isParen left.2
  have hright : ∀ right : Right, right.1.isLoopWord = false := fun right =>
    Token.not_isLoopWord_of_isParen right.2
  have hstop : ∀ stop : Stop, stop.1.isLoopWord = false := fun stop =>
    Token.not_isLoopWord_of_kind stop.kind_eq (by decide)
  cases p with
  | empty | conditionalEnd | loopEnd => exact Iff.rfl
  | assignment target sign value stop =>
    have hsign := Token.not_isLoopWord_of_kind sign.kind_eq (by decide)
    simp only [tail, operands, List.forall_mem_cons, List.forall_mem_append, hsign, hstop,
      List.not_mem_nil, false_implies, implies_true, and_true, true_and]
  | write word left text further right stop =>
    have htext := Token.not_isLoopWord_of_kind text.kind_eq (by decide)
    simp only [tail, operands, List.forall_mem_cons, List.forall_mem_append, hleft, htext, hright,
      hstop, List.not_mem_nil, false_implies, implies_true, and_true, true_and]
  | capture word left name right stop => simp [tail, operands, hleft, hright, hstop]
  | conditional word left condition right next =>
    have hnext := Clause.not_isLoopWord_of_word next (by decide)
    simp only [tail, operands, List.forall_mem_cons, List.forall_mem_append, hleft, hright, hnext,
      List.not_mem_nil, false_implies, implies_true, and_true, true_and]
  | loop word left condition right =>
    simp only [tail, operands, List.forall_mem_cons, List.forall_mem_append, hleft, hright,
      List.not_mem_nil, false_implies, implies_true, and_true, true_and]

/-- A phrase that begins with a word of a loop is the head or the end of one. -/
theorem role_of_isLoopWord {p : Phrase} (h : p.head.isLoopWord = true) :
    p.role = .opens .loop ∨ p.role = .closes .loop := by
  cases p with
  | loop => exact .inl rfl
  | loopEnd => exact .inr rfl
  | empty stop =>
    exact absurd h (Bool.eq_false_iff.mp
      (Token.not_isLoopWord_of_kind stop.kind_eq (by decide)))
  | assignment target => exact absurd h (Bool.eq_false_iff.mp target.2.2)
  | write word | capture word | conditional word | conditionalEnd word =>
    exact absurd h (Bool.eq_false_iff.mp (Clause.not_isLoopWord_of_word word (by decide)))

end Grammar.Phrase

/-- The words of loops are reserved in a text that consists of the phrases: they begin loops and end
them, they do nothing else, and each has its instruction. -/
structure LoopWordsReserved (tokens : List Token) (phrases : List Phrase) : Prop where
  /-- A word of a loop is the first token of a phrase. -/
  first : ∀ p ∈ phrases, ∀ t ∈ p.tail, t.isLoopWord = false
  /-- A phrase that begins with one is the head or the end of a loop. -/
  role : ∀ p ∈ phrases, p.head.isLoopWord = true → p.role = .opens .loop ∨ p.role = .closes .loop
  /-- There are as many heads of loops in the program as there are words for them. -/
  loops : (Program.ofTokens tokens).countP Instruction.isLoop =
    tokens.countP fun t => t.isWord "while"
  /-- There are as many ends of loops in the program as there are words for them. -/
  ends : (Program.ofTokens tokens).countP Instruction.isLoopEnd =
    tokens.countP fun t => t.isWord "end-while"

/-- **When the words of loops are reserved.** In an accepted text they are if and only if none of
them is an operand. The number of loops is right in any case, and the number of ends is if the text
has as many words that end loops as words that begin them. -/
theorem loopWordsReserved_iff {text : String} (h : accepts (Token.scan text) = true) :
    ∃ phrases, Nested phrases ∧
      Check.segments [] (Token.scan text) = phrases.map Phrase.tokens ∧
      (LoopWordsReserved (Token.scan text) phrases ↔
        ∀ p ∈ phrases, ∀ t ∈ p.operands, t.isLoopWord = false) ∧
      ((Program.ofTokens (Token.scan text)).countP Instruction.isLoop =
        (Token.scan text).countP fun t => t.isWord "while") ∧
      ((Program.ofTokens (Token.scan text)).countP Instruction.isLoopEnd =
          ((Token.scan text).countP fun t => t.isWord "end-while") ↔
        ((Token.scan text).countP fun t => t.isWord "while") =
          (Token.scan text).countP fun t => t.isWord "end-while") := by
  obtain ⟨phrases, hnested, hflat, hsegments, hc⟩ := Check.exists_phrases_of_accepts h
  refine ⟨phrases, hnested, hsegments, ⟨fun hreserved p hp => ?_, fun hoperands => ?_⟩,
    Program.countP_isLoop_ofTokens _, ?_⟩
  · exact p.forall_mem_tail_iff.mp (hreserved.first p hp)
  · have hfirst : ∀ p ∈ phrases, ∀ t ∈ p.tail, t.isLoopWord = false :=
      fun p hp => p.forall_mem_tail_iff.mpr (hoperands p hp)
    have hagreement := agreement_of_nested hnested hc hfirst
    refine ⟨hfirst, fun p _ => Phrase.role_of_isLoopWord, Program.countP_isLoop_ofTokens _, ?_⟩
    rw [← Clause.countP_word?_ofTokens (.inr rfl), ← hflat,
      Clause.ofTokens_flatMap hc hfirst, ← hagreement.instructions, List.countP_map]
    refine congrArg (List.countP · _) ?_
    exact Clause.isLoopEnd_comp_clause.symm
  · rw [Program.countP_isLoopEnd_ofTokens, Program.countP_isLoop_ofTokens]

/-- A loop in a conditional, with names and numbers for operands. -/
theorem loopWordsReserved_iff_nested_loop :
    ∃ phrases, Nested phrases ∧
      Check.segments [] (Token.scan "if (x < 1) then while (x) x = y - 1 :: end-while end-if") =
        phrases.map Phrase.tokens ∧
      (LoopWordsReserved
          (Token.scan "if (x < 1) then while (x) x = y - 1 :: end-while end-if") phrases ↔
        ∀ p ∈ phrases, ∀ t ∈ p.operands, t.isLoopWord = false) := by
  obtain ⟨phrases, hnested, hsegments, hreserved, -⟩ :=
    loopWordsReserved_iff
      (show accepts (Token.scan "if (x < 1) then while (x) x = y - 1 :: end-while end-if") = true
        by decide +kernel)
  exact ⟨phrases, hnested, hsegments, hreserved⟩

/-- **The words of loops are not reserved in every accepted text.** The checker takes `while` for a
name here, and the reader for a loop, which nothing in the text ends. -/
theorem not_loopWordsReserved_assigned_while :
    accepts (Token.scan "x = while ::") = true ∧
      ∀ phrases, Check.segments [] (Token.scan "x = while ::") = phrases.map Phrase.tokens →
        ¬ LoopWordsReserved (Token.scan "x = while ::") phrases := by
  refine ⟨by decide +kernel, fun phrases _ hreserved => ?_⟩
  have hends : (Program.ofTokens (Token.scan "x = while ::")).countP Instruction.isLoopEnd = 1 := by
    decide +kernel
  have hwords : ((Token.scan "x = while ::").countP fun t => t.isWord "end-while") = 0 := by
    decide +kernel
  have hequal := hreserved.ends
  rw [hends, hwords] at hequal
  cases hequal

end Stepwise
