import Stepwise.Compilation
import Stepwise.Proofs.Clauses
import Stepwise.Proofs.Layout
import Stepwise.Proofs.Segments

/-!
# The checker and the reader agree

The checker and the reader do not know of each other, and where a program uses the words of loops
as names they do not agree on what its statements are. Where it does not, they do: the instructions
of an accepted program are those of its phrases, one for each phrase that does something and in
their order, and the head of a loop points to the end that the checker closed it with.

The clauses of nested phrases are nested, so the statements that the second pass makes of them
flatten to the same list again. Which end a head points to is then a fact about the flat program.

## Main definitions

* `Instruction.clause` — the clause that an instruction carries out
* `Agreement` — what it means that the checker and the reader agree

## Main results

* `Stmt.ofStmts_ofClauses` — nested clauses are flattened in order
* `exists_agreement` — the checker and the reader agree about accepted texts in which the words of
  loops stand only at the head of statements
-/

namespace Stepwise

open Grammar

namespace Clause

/-- The instruction that carries out a clause, pointing nowhere yet. -/
def instruction : Clause → Instruction
  | .loop condition => .loop condition 0
  | .loopEnd => .loopEnd
  | .assign target value => .assign target value
  | .write args => .write args

end Clause

namespace Instruction

/-- The clause that an instruction carries out. -/
def clause : Instruction → Clause
  | .loop condition _ => .loop condition
  | .loopEnd => .loopEnd
  | .assign target value => .assign target value
  | .write args => .write args

@[simp] theorem clause_instruction (c : Clause) : c.instruction.clause = c := by
  cases c <;> rfl

@[simp] theorem clause_pointTo (stop : Nat) (i : Instruction) :
    (i.pointTo stop).clause = i.clause := by
  cases i <;> rfl

end Instruction

theorem Program.map_clause_link (program : Program) :
    (link program).map Instruction.clause = program.map Instruction.clause := by
  refine List.ext_getElem (by simp) fun i h₁ h₂ => ?_
  simp [link_eq_mapIdx]

/-! ### Bodies -/

namespace Stmt

theorem partsOfClauses_assign (target : String) (value : Expr) (rest : List Clause) :
    partsOfClauses (.assign target value :: rest) =
      (.assign target value :: (partsOfClauses rest).1, (partsOfClauses rest).2) := by
  rw [partsOfClauses]

theorem partsOfClauses_write (args : List Expr) (rest : List Clause) :
    partsOfClauses (.write args :: rest) =
      (.write args :: (partsOfClauses rest).1, (partsOfClauses rest).2) := by
  rw [partsOfClauses]

theorem partsOfClauses_loopEnd (rest : List Clause) :
    partsOfClauses (.loopEnd :: rest) =
      ([], (partsOfClauses rest).1 :: (partsOfClauses rest).2) := by
  rw [partsOfClauses]

theorem partsOfClauses_loop {condition : Expr} {rest : List Clause} {body next : List Stmt}
    {behind : List (List Stmt)} (h : partsOfClauses rest = (body, next :: behind)) :
    partsOfClauses (.loop condition :: rest) = (.loop condition body :: next, behind) := by
  rw [partsOfClauses, h]

theorem ofClauses_assign (target : String) (value : Expr) (rest : List Clause) :
    ofClauses (.assign target value :: rest) = .assign target value :: ofClauses rest := by
  rw [ofClauses, partsOfClauses_assign, ofClauses]
  rfl

theorem ofClauses_write (args : List Expr) (rest : List Clause) :
    ofClauses (.write args :: rest) = .write args :: ofClauses rest := by
  rw [ofClauses, partsOfClauses_write, ofClauses]
  rfl

theorem ofClauses_loopEnd (rest : List Clause) : ofClauses (.loopEnd :: rest) = ofClauses rest := by
  rw [ofClauses, partsOfClauses_loopEnd, ofClauses]
  rfl

/-- A loop takes what follows it into its body, up to its end or to the end of the text. -/
theorem ofClauses_loop (condition : Expr) (rest : List Clause) :
    ∃ body behind, ofClauses rest = body ++ behind ∧
      ofClauses (.loop condition :: rest) = .loop condition body :: behind := by
  cases hparts : partsOfClauses rest with
  | mk body others =>
    cases others with
    | nil =>
      refine ⟨body, [], by rw [ofClauses, hparts]; rfl, ?_⟩
      rw [ofClauses, partsOfClauses, hparts]
      rfl
    | cons next others =>
      refine ⟨body, next ++ others.flatten, by rw [ofClauses, hparts]; rfl, ?_⟩
      rw [ofClauses, partsOfClauses_loop hparts]
      rfl

end Stmt

namespace Grammar

theorem Phrase.clause?_of_plain {p : Phrase} (h : p.role = .plain) :
    p.clause? = none ∨ (∃ target value, p.clause? = some (.assign target value)) ∨
      ∃ args, p.clause? = some (.write args) := by
  cases p with
  | empty | capture => exact .inl rfl
  | assignment => exact .inr (.inl ⟨_, _, rfl⟩)
  | write => exact .inr (.inr ⟨_, rfl⟩)
  | conditional | conditionalEnd | loop | loopEnd => cases h

theorem Phrase.clause?_of_opens {p : Phrase} {block : Block} (h : p.role = .opens block) :
    block = .conditional ∧ p.clause? = none ∨
      block = .loop ∧ ∃ condition, p.clause? = some (.loop condition) := by
  cases p with
  | conditional =>
    cases h
    exact .inl ⟨rfl, rfl⟩
  | loop =>
    cases h
    exact .inr ⟨rfl, _, rfl⟩
  | empty | assignment | write | capture | conditionalEnd | loopEnd => cases h

theorem Phrase.clause?_of_closes {p : Phrase} {block : Block} (h : p.role = .closes block) :
    p.clause? = if block = .loop then some .loopEnd else none := by
  cases p with
  | conditionalEnd | loopEnd =>
    cases h
    rfl
  | empty | assignment | write | capture | conditional | loop => cases h

/-- Nested phrases become statements that flatten to their clauses in order, and leave what follows
them as it was. -/
theorem Nested.exists_stmts {phrases : List Phrase} (h : Nested phrases) :
    ∃ stmts, Instruction.ofStmts stmts = (clauses phrases).map Clause.instruction ∧
      ∀ rest, Stmt.partsOfClauses (clauses phrases ++ rest) =
        (stmts ++ (Stmt.partsOfClauses rest).1, (Stmt.partsOfClauses rest).2) := by
  induction h with
  | nil => exact ⟨[], Instruction.ofStmts_nil, fun rest => rfl⟩
  | @plain p phrases role _ ih =>
    obtain ⟨stmts, hflat, hparts⟩ := ih
    rcases p.clause?_of_plain role with hnone | ⟨target, value, hassign⟩ | ⟨args, hwrite⟩
    · rw [clauses_cons_of_none hnone]
      exact ⟨stmts, hflat, hparts⟩
    · rw [clauses_cons_of_some hassign]
      refine ⟨.assign target value :: stmts, ?_, fun rest => ?_⟩
      · rw [Instruction.ofStmts_assign, hflat]
        rfl
      · rw [List.cons_append, Stmt.partsOfClauses_assign, hparts]
        rfl
    · rw [clauses_cons_of_some hwrite]
      refine ⟨.write args :: stmts, ?_, fun rest => ?_⟩
      · rw [Instruction.ofStmts_write, hflat]
        rfl
      · rw [List.cons_append, Stmt.partsOfClauses_write, hparts]
        rfl
  | @block block first last body phrases opens closes _ _ ihbody ihrest =>
    obtain ⟨inner, hinner, hbody⟩ := ihbody
    obtain ⟨stmts, hflat, hparts⟩ := ihrest
    have hlast := last.clause?_of_closes closes
    rcases first.clause?_of_opens opens with ⟨rfl, hfirst⟩ | ⟨rfl, condition, hfirst⟩
    · rw [clauses_cons_of_none hfirst, clauses_append, clauses_cons_of_none hlast]
      refine ⟨inner ++ stmts, ?_, fun rest => ?_⟩
      · rw [Instruction.ofStmts_append, hinner, hflat, List.map_append]
      · rw [List.append_assoc, hbody, hparts, List.append_assoc]
    · rw [clauses_cons_of_some hfirst, clauses_append, clauses_cons_of_some hlast]
      refine ⟨.loop condition inner :: stmts, ?_, fun rest => ?_⟩
      · rw [Instruction.ofStmts_loop, hinner, hflat, List.map_cons, List.map_append, List.map_cons]
        rfl
      · have hloop := hbody (.loopEnd :: (clauses phrases ++ rest))
        rw [Stmt.partsOfClauses_loopEnd, hparts, List.append_nil] at hloop
        rw [List.cons_append, List.append_assoc, List.cons_append,
          Stmt.partsOfClauses_loop hloop]
        rfl

/-- The statements of nested phrases flatten to the clauses of the phrases, in order. -/
theorem Nested.ofStmts_ofClauses {phrases : List Phrase} (h : Nested phrases) :
    Instruction.ofStmts (Stmt.ofClauses (clauses phrases)) =
      (clauses phrases).map Clause.instruction := by
  obtain ⟨stmts, hflat, hparts⟩ := h.exists_stmts
  have hnil : Stmt.partsOfClauses [] = ([], []) := by rw [Stmt.partsOfClauses]
  have hall := hparts []
  rw [hnil, List.append_nil, List.append_nil] at hall
  rw [Stmt.ofClauses, hall]
  show Instruction.ofStmts (stmts ++ List.flatten []) = _
  rw [List.flatten_nil, List.append_nil, hflat]

theorem Nested.bracketed {phrases : List Phrase} (h : Nested phrases) :
    Program.Bracketed ((clauses phrases).map Clause.instruction) := by
  rw [← h.ofStmts_ofClauses]
  exact Program.bracketed_ofStmts _

/-- Every head of a block has its end behind it. -/
theorem Nested.exists_last {before rest : List Phrase} {first : Phrase} {block : Block}
    (h : Nested (before ++ first :: rest)) (opens : first.role = .opens block) :
    ∃ body last behind, rest = body ++ last :: behind ∧ Nested body ∧
      last.role = .closes block := by
  rw [nested_iff_foldlM, List.foldlM_append, Option.bind_eq_bind, Option.bind_eq_some_iff] at h
  obtain ⟨blocks, -, hfold⟩ := h
  rw [List.foldlM_cons, Phrase.follow_of_opens opens, Option.bind_eq_bind,
    Option.bind_some] at hfold
  cases unwinds_of_foldlM hfold with
  | @closes _ _ last body behind closes hbody _ =>
    exact ⟨body, last, behind, rfl, hbody, closes⟩

end Grammar

namespace Program

/-- In a linked program, a head with a bracketed body behind it points to the end behind that. -/
theorem getElem?_link_loop {body : Program} (h : Bracketed body) (before rest : Program)
    (condition : Expr) (stop : Nat) :
    (link (before ++ .loop condition stop :: (body ++ .loopEnd :: rest)))[before.length]? =
      some (.loop condition (before.length + 1 + body.length)) := by
  rw [link_eq_mapIdx, List.getElem?_mapIdx, List.getElem?_append_right (Nat.le_refl _),
    Nat.sub_self, List.getElem?_cons_zero, Option.map_some, loopEnd_append_body h]
  rfl

theorem getElem?_link_loopEnd (before rest : Program) :
    (link (before ++ .loopEnd :: rest))[before.length]? = some .loopEnd := by
  rw [link_eq_mapIdx, List.getElem?_mapIdx, List.getElem?_append_right (Nat.le_refl _),
    Nat.sub_self, List.getElem?_cons_zero, Option.map_some]
  rfl

end Program

/-! ### Agreement -/

/-- The words of loops stand only at the head of what the checker reads as statements. -/
def Check.LoopWordsLead (tokens : List Token) : Prop :=
  ∀ segment ∈ Check.segments [] tokens, ∀ t ∈ segment.tail, t.isLoopWord = false

instance (tokens : List Token) : Decidable (Check.LoopWordsLead tokens) :=
  inferInstanceAs (Decidable (∀ segment ∈ Check.segments [] tokens, ∀ t ∈ segment.tail,
    t.isLoopWord = false))

/-- The words of loops stand at no other place of the phrases that the statements are. -/
theorem Check.LoopWordsLead.tail {tokens : List Token} {phrases : List Phrase}
    (h : LoopWordsLead tokens) (hsegments : segments [] tokens = phrases.map Phrase.tokens) :
    ∀ p ∈ phrases, ∀ t ∈ p.tail, t.isLoopWord = false := by
  intro p hp
  refine h p.tokens ?_
  rw [hsegments]
  exact List.mem_map_of_mem hp

/-- The checker and the reader agree that the program consists of the phrases. The index of the
instruction of a phrase is the number of clauses before it. -/
structure Agreement (tokens : List Token) (phrases : List Phrase) : Prop where
  /-- The phrases are those of a well-formed program. -/
  nested : Nested phrases
  /-- They are what the checker reads, statement by statement. -/
  segments : Check.segments [] tokens = phrases.map Phrase.tokens
  /-- Each phrase that has a clause has an instruction, in order, and there are no others. -/
  instructions : (Program.ofTokens tokens).map Instruction.clause = clauses phrases
  /-- The head of a loop points to the end that closes it. -/
  ends : ∀ before first rest, phrases = before ++ first :: rest → first.role = .opens .loop →
    ∃ body last behind condition, rest = body ++ last :: behind ∧ Nested body ∧
      last.role = .closes .loop ∧
      (Program.ofTokens tokens)[(clauses before).length]? =
        some (.loop condition (clauses (before ++ first :: body)).length) ∧
      (Program.ofTokens tokens)[(clauses (before ++ first :: body)).length]? = some .loopEnd
  /-- There is one note for each conditional and each `capture`. -/
  notes : notExecutedNotes tokens = phrases.filterMap Phrase.note?

/-- The program of a list of phrases is that of its clauses. -/
theorem Program.ofTokens_flatMap {phrases : List Phrase}
    (hc : ∀ p ∈ phrases, ∀ t ∈ p.tokens, t.IsClassified)
    (hloop : ∀ p ∈ phrases, ∀ t ∈ p.tail, t.isLoopWord = false) :
    ofTokens (phrases.flatMap Phrase.tokens) = ofStmts (Stmt.ofClauses (clauses phrases)) := by
  rw [ofTokens_eq, Stmt.ofTokens, Stmt.ofTokensIn, Clause.ofTokens_flatMap hc hloop]

theorem agreement_of_nested {phrases : List Phrase} (h : Nested phrases)
    (hc : ∀ p ∈ phrases, ∀ t ∈ p.tokens, t.IsClassified)
    (hloop : ∀ p ∈ phrases, ∀ t ∈ p.tail, t.isLoopWord = false) :
    Agreement (phrases.flatMap Phrase.tokens) phrases := by
  have hprogram : Program.ofTokens (phrases.flatMap Phrase.tokens) =
      Program.link ((clauses phrases).map Clause.instruction) := by
    rw [Program.ofTokens_flatMap hc hloop, Program.ofStmts, h.ofStmts_ofClauses]
  refine ⟨h, ?_, ?_, ?_, notExecutedNotes_flatMap phrases⟩
  · exact Check.segments_flatMap (List.forall_mem_flatMap.mpr hc) (nested_iff_foldlM.mp h)
  · have hid : Instruction.clause ∘ Clause.instruction = id :=
      funext fun c => Instruction.clause_instruction c
    rw [hprogram, Program.map_clause_link, List.map_map, hid, List.map_id]
  · rintro before first rest rfl opens
    obtain ⟨body, last, behind, rfl, hbody, closes⟩ := h.exists_last opens
    rcases first.clause?_of_opens opens with ⟨hblock, -⟩ | ⟨-, condition, hfirst⟩
    · cases hblock
    have hclauses : clauses (before ++ first :: (body ++ last :: behind)) =
        clauses before ++ .loop condition :: (clauses body ++ .loopEnd :: clauses behind) := by
      rw [clauses_append, clauses_cons_of_some hfirst, clauses_append,
        clauses_cons_of_some (last.clause?_of_closes closes)]
    have hstop : (clauses (before ++ first :: body)).length =
        (clauses before).length + 1 + (clauses body).length := by
      rw [clauses_append, clauses_cons_of_some hfirst, List.length_append, List.length_cons]
      omega
    rw [hclauses, List.map_append, List.map_cons, List.map_append, List.map_cons] at hprogram
    refine ⟨body, last, behind, condition, rfl, hbody, closes, ?_, ?_⟩
    · have hhead := Program.getElem?_link_loop hbody.bracketed
        ((clauses before).map Clause.instruction) ((clauses behind).map Clause.instruction)
        condition 0
      rw [List.length_map, List.length_map, ← hstop] at hhead
      rw [hprogram]
      exact hhead
    · have hend := Program.getElem?_link_loopEnd
        ((clauses before).map Clause.instruction ++
          .loop condition 0 :: (clauses body).map Clause.instruction)
        ((clauses behind).map Clause.instruction)
      have hindex : (clauses before).length + ((clauses body).length + 1) =
          (clauses (before ++ first :: body)).length := by
        rw [hstop]
        omega
      rw [List.length_append, List.length_cons, List.length_map, List.length_map, hindex,
        List.append_assoc] at hend
      rw [hprogram]
      exact hend

/-- **The checker and the reader agree.** -/
theorem exists_agreement {text : String} (h : accepts (Token.scan text) = true)
    (hlead : Check.LoopWordsLead (Token.scan text)) :
    ∃ phrases, Agreement (Token.scan text) phrases := by
  obtain ⟨phrases, hnested, hflat, hsegments, hc⟩ := Check.exists_phrases_of_accepts h
  refine ⟨phrases, ?_⟩
  rw [← hflat]
  refine agreement_of_nested hnested hc fun p hp t ht => ?_
  refine hlead p.tokens ?_ t ht
  rw [hsegments]
  exact List.mem_map_of_mem hp

/-- Conditionals and `capture` stand between the two ends of a loop, and the reader stops early both
in its head and in the arguments of `write`. -/
theorem exists_agreement_early_stop :
    ∃ phrases, Agreement (Token.scan
      "while ((x) < 2 (3)) if (x) then write(\"a\", (x) (y)) :: end-if capture(y) :: end-while")
      phrases :=
  exists_agreement (by decide +kernel) (by decide +kernel)

end Stepwise
