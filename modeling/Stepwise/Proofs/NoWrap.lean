import Mathlib
import Stepwise.Proofs.Counters
import Stepwise.Proofs.Sizes
import Stepwise.Proofs.Tokenization

/-!
# Counters do not wrap

The counters are words of 32 bits, all but one unsigned, and the depth of loops is counted in words
of the machine. A text with fewer than `2 ^ 31` bytes has fewer tokens than that, and its program
fewer than twice as many instructions, so no count gets to the upper end of a word.

And none falls below zero where there is nothing below zero, but each loop has its own reason. A
condition and the search for an end are left as soon as the count is zero. The arguments of `write`
are left at zero in front of a right parenthesis, while any parenthesis that is not a left one moves
the count down: here it matters that a text has no others. The right side of an assignment is
counted with a sign and left at minus one.

So the loops count as in the integers, and then what is found in the tokens and what is read from
them is the same as well.

## Main definitions

* `Token.Countable` — token lists for which 32 bits are enough

## Main results

* `Check.program_eq` — what is found does not depend on the words that are used for counting
* `Clause.ofTokens_eq`, `Program.linkIn_eq` — nor does what is read, or where heads point
* `counters_never_wrap` — all of it, with the counts themselves
-/

namespace Stepwise

open Depth

/-- The tokens of a text that are fewer than `2 ^ 31`, or the end of such a list. -/
structure Token.Countable (tokens : List Token) : Prop where
  classified : ∀ t ∈ tokens, t.IsClassified
  short : tokens.length < 2 ^ 31

namespace Token

theorem Countable.of_suffix {tokens rest : List Token} (h : Countable tokens)
    (hrest : rest <:+ tokens) : Countable rest :=
  ⟨fun t ht => h.classified t (hrest.subset ht), Nat.lt_of_le_of_lt hrest.length_le h.short⟩

theorem Countable.tail {t : Token} {ts : List Token} (h : Countable (t :: ts)) : Countable ts :=
  h.of_suffix (List.suffix_cons t ts)

theorem countable_scan {text : String} (h : text.utf8ByteSize < 2 ^ 31) : Countable (scan text) :=
  ⟨fun _ ht => isClassified_of_mem_scan ht, Nat.lt_of_le_of_lt (length_scan_le text) h⟩

/-- The only parenthesis that closes is a right one, if the token is one of a text. -/
theorem IsClassified.isParen_of_parenMove {t : Token} (h : t.IsClassified)
    (hdown : t.parenMove = .down) : t.isParen ")" = true := by
  by_cases hparen : t.kind = .paren
  · refine (h.isParen_or hparen).resolve_left fun hleft => ?_
    rw [parenMove, if_pos hparen, if_pos (isParen_iff.mp hleft).2] at hdown
    cases hdown
  · rw [parenMove, if_neg hparen] at hdown
    cases hdown

end Token

/-! ### The loops -/

section

variable {κ : Type} [Depth κ] {value : κ → Int} {tokens : List Token}

theorem Check.keeps_conditionLoop (hκ : Faithful 0 (2 ^ 31) value) (h : Token.Countable tokens) :
    conditionLoop.Keeps 0 value one tokens := by
  have hone := hκ.one (by decide)
  have hshort := h.short
  exact CountingLoop.keeps hκ (Int.le_refl 0) (fun t _ _ => rfl) (by omega) (by omega)

theorem Check.keeps_argumentsLoop (hκ : Faithful 0 (2 ^ 31) value) (h : Token.Countable tokens) :
    argumentsLoop.Keeps 0 value zero tokens := by
  have hzero := hκ.zero
  have hshort := h.short
  refine CountingLoop.keeps hκ (Int.le_refl 0) (fun t ht hdown => ?_) (by omega) (by omega)
  have hright := (h.classified t ht).isParen_of_parenMove hdown
  simp [argumentsLoop, signOfInt, hright]

/-- A text has no parenthesis like this one, on which the count wraps. -/
example : (Check.argumentsLoop.run (zero : UInt32) [⟨.paren, "[", ⟨0, 1⟩⟩]).last = 2 ^ 32 - 1 := by
  decide

theorem Check.keeps_rightSideLoop (hκ : Faithful (-1) (2 ^ 31 - 1) value)
    (h : Token.Countable tokens) :
    rightSideLoop.Keeps (-1) value zero tokens := by
  have hzero := hκ.zero
  have hshort := h.short
  refine CountingLoop.keeps hκ (Int.le_refl (-1)) (fun t _ _ => ?_) (by omega) (by omega)
  simp [rightSideLoop, signOfInt]

theorem Clause.keeps_skipLoop (hκ : Faithful 0 (2 ^ 31) value) (h : Token.Countable tokens) :
    skipLoop.Keeps 0 value one tokens := by
  have hone := hκ.one (by decide)
  have hshort := h.short
  exact CountingLoop.keeps hκ (Int.le_refl 0) (fun t _ _ => rfl) (by omega) (by omega)

theorem Program.keeps_endLoop (hκ : Faithful 0 (2 ^ 32 - 1) value) {p : Program}
    (h : p.length < 2 ^ 32 - 1) : endLoop.Keeps 0 value one p := by
  have hone := hκ.one (by decide)
  exact CountingLoop.keeps hκ (Int.le_refl 0) (fun i _ _ => rfl) (by omega) (by omega)

end

/-! ### Checking -/

namespace Check

open Outcome

theorem argumentsOutcome_map {κ : Type} (value : κ → Int) (r : CountingRun Token κ) :
    argumentsOutcome (r.map value) = argumentsOutcome r := by
  simp only [argumentsOutcome, CountingRun.map, List.flatMap_map]

section

variable {κ : Type} [Depth κ] {low high : Int} {value : κ → Int} {r : CountingRun Token κ}

theorem conditionOutcome_map (hκ : Faithful low high value) (block : Block) :
    conditionOutcome block (r.map value) = conditionOutcome block r := by
  simp only [conditionOutcome, CountingRun.map, hκ.isZero, List.flatMap_map]

theorem strayClose_value (hκ : Faithful low high value) (t : Token) (d : κ) :
    strayClose t (value d) = strayClose t d := by
  rw [strayClose, strayClose, hκ.sign, sign_int]

theorem openAssignment_value (hκ : Faithful low high value) (d : κ) (ts : List Token) :
    openAssignment (value d) ts = openAssignment d ts := by
  rw [openAssignment, openAssignment, hκ.sign, sign_int]

theorem rightSideOutcome_map (hκ : Faithful low high value)
    (hmoves : ∀ p ∈ r.read, value (p.1.parenMove.apply p.2) = p.1.parenMove.apply (value p.2)) :
    rightSideOutcome (r.map value) = rightSideOutcome r := by
  have hread : (r.map value).read.flatMap (fun p => foundIn Grammar.valueKinds .inAssignment p.1 ++
        strayClose p.1 (p.1.parenMove.apply p.2)) =
      r.read.flatMap fun p => foundIn Grammar.valueKinds .inAssignment p.1 ++
        strayClose p.1 (p.1.parenMove.apply p.2) := by
    rw [CountingRun.map, List.flatMap_map]
    refine List.flatMap_congr fun p hp => ?_
    rw [← hmoves p hp, strayClose_value hκ]
  rw [rightSideOutcome, rightSideOutcome, hread]
  simp only [CountingRun.map, openAssignment_value hκ]

end

section

variable {κ σ : Type} [Depth κ] [Depth σ] {value : κ → Int} {signed : σ → Int}
  {tokens : List Token}

theorem condition_eq (hκ : Faithful 0 (2 ^ 31) value) (h : Token.Countable tokens) (block : Block) :
    condition block (one : κ) tokens = condition block (one : Int) tokens := by
  have hone := hκ.one (by decide)
  have hopen : isZero (one : κ) = false := hκ.isZero_eq_false (by omega)
  have hopen' : isZero (one : Int) = false := rfl
  rw [condition_eq_outcome block hopen, condition_eq_outcome block hopen',
    ← conditionOutcome_map hκ, (keeps_conditionLoop hκ h).exact, hone, one_int]

theorem arguments_eq (hκ : Faithful 0 (2 ^ 31) value) (h : Token.Countable tokens) :
    arguments (zero : κ) tokens = arguments (zero : Int) tokens := by
  rw [arguments_eq_outcome, arguments_eq_outcome, ← argumentsOutcome_map value,
    (keeps_argumentsLoop hκ h).exact, hκ.zero, zero_int]

theorem rightSide_eq (hσ : Faithful (-1) (2 ^ 31 - 1) signed) (h : Token.Countable tokens) :
    rightSide (zero : σ) tokens = rightSide (zero : Int) tokens := by
  have hkeeps := keeps_rightSideLoop hσ h
  have hsign : sign (zero : σ) ≠ .lt := by
    rw [hσ.sign, hσ.zero]
    decide
  have hsign' : sign (zero : Int) ≠ .lt := by decide
  rw [rightSide_eq_outcome hsign, rightSide_eq_outcome hsign',
    ← rightSideOutcome_map hσ hkeeps.moves, hkeeps.exact, hσ.zero, zero_int]

theorem andThen_congr {o : Outcome} {next next' : List Token → Outcome}
    (h : next o.rest = next' o.rest) : o.andThen next = o.andThen next' := by
  rw [Outcome.andThen, Outcome.andThen, h]

theorem header_eq (hκ : Faithful 0 (2 ^ 31) value) (h : Token.Countable tokens) (block : Block) :
    header κ block tokens = header Int block tokens :=
  andThen_congr (condition_eq hκ (h.of_suffix (expect_suffix ..)) block)

theorem write_eq_int (hκ : Faithful 0 (2 ^ 31) value) (h : Token.Countable tokens) :
    write κ tokens = write Int tokens := by
  have hrest : ((expect (.lexeme .paren "(") tokens).andThen (expect (.kind .string))).rest <:+
      tokens := rest_andThen_suffix (expect_suffix ..) (expect_suffix _)
  refine congrArg (fun o => (o.andThen closeWrite).andThen (expectTerminator .unendedWrite))
    (andThen_congr ?_)
  cases hbehind : ((expect (.lexeme .paren "(") tokens).andThen (expect (.kind .string))).rest with
  | nil => rfl
  | cons t ts =>
    rw [hbehind] at hrest
    show (if t.kind = .comma then arguments (zero : κ) ts else _) = if t.kind = .comma then _ else _
    rw [arguments_eq hκ (h.of_suffix hrest).tail]

theorem assignment_eq (hσ : Faithful (-1) (2 ^ 31 - 1) signed) (h : Token.Countable tokens) :
    assignment σ tokens = assignment Int tokens :=
  congrArg (Outcome.andThen · (expectTerminator .unendedAssignment))
    (andThen_congr (rightSide_eq hσ (h.of_suffix (expect_suffix ..))))

theorem statement_eq (hκ : Faithful 0 (2 ^ 31) value) (hσ : Faithful (-1) (2 ^ 31 - 1) signed)
    (h : Token.Countable tokens) (blocks : List Block) (t : Token) :
    statement κ σ blocks t tokens = statement Int Int blocks t tokens := by
  simp only [statement, header_eq hκ h, write_eq_int hκ h, assignment_eq hσ h]

/-- **What is found does not depend on the words that are used for counting**, as long as they are
wide enough. -/
theorem program_eq (hκ : Faithful 0 (2 ^ 31) value) (hσ : Faithful (-1) (2 ^ 31 - 1) signed)
    (h : Token.Countable tokens) (blocks : List Block) :
    program κ σ blocks tokens = program Int Int blocks tokens := by
  induction blocks, tokens using program.induct κ σ with
  | case1 => rw [program_nil, program_nil]
  | case2 block blocks => rw [program_nil, program_nil]
  | case3 blocks t ts checked ih =>
    have hstatement : checked = statement Int Int blocks t ts := statement_eq hκ hσ h.tail blocks t
    have hbehind := ih (h.tail.of_suffix (statement_suffix κ σ blocks t ts))
    rw [hstatement] at hbehind
    rw [program_cons, program_cons, ← hbehind]
    rw [statement_eq hκ hσ h.tail]

end

end Check

/-! ### Reading -/

theorem Reading.ext_value_rest {α : Type} {tokens : List Token} {r r' : Reading α tokens}
    (hvalue : r.value = r'.value) (hrest : r.rest = r'.rest) : r = r' := by
  cases r
  cases hvalue
  cases hrest
  rfl

namespace Clause

variable {κ : Type} [Depth κ] {value : κ → Int} {tokens : List Token}

theorem skipPastClose_eq (hκ : Faithful 0 (2 ^ 31) value) (h : Token.Countable tokens) :
    skipPastClose (one : κ) tokens = skipPastClose (one : Int) tokens := by
  have hone := hκ.one (by decide)
  have hshort := h.short
  have hkeeps := (keeps_skipLoop hκ h).exact
  have hint : Faithful 0 (2 ^ 31) (id : Int → Int) := faithful_int 0 (2 ^ 31)
  rw [hone] at hkeeps
  refine Reading.ext_value_rest rfl ?_
  calc (skipPastClose (one : κ) tokens).rest
      = (skipLoop.run (one : κ) tokens).rest := rest_skipPastClose_eq hκ (by omega) (by omega)
    _ = (skipLoop.run (one : Int) tokens).rest := congrArg CountingRun.rest hkeeps
    _ = (skipPastClose (one : Int) tokens).rest :=
      (rest_skipPastClose_eq hint (by decide) (show (1 : Int) + _ ≤ _ by omega)).symm

theorem header_eq (hκ : Faithful 0 (2 ^ 31) value) (h : Token.Countable tokens) :
    header κ tokens = header Int tokens := by
  cases tokens with
  | nil => rfl
  | cons t ts =>
    have hskip := skipPastClose_eq hκ (h.tail.of_suffix (Expr.condition ts).rest_suffix)
    simp only [header, Reading.andThen, hskip]

theorem read_eq (hκ : Faithful 0 (2 ^ 31) value) (h : Token.Countable tokens) (t : Token) :
    read κ t tokens = read Int t tokens := by
  rw [read, read, header_eq hκ h]

/-- **What is read does not depend on the words that are used for counting.** -/
theorem ofTokens_eq (hκ : Faithful 0 (2 ^ 31) value) (h : Token.Countable tokens) :
    ofTokens κ tokens = ofTokens Int tokens := by
  induction tokens using ofTokens.induct κ with
  | case1 => rw [ofTokens_nil, ofTokens_nil]
  | case2 t ts reading ih =>
    have hbehind := ih (h.tail.of_suffix reading.rest_suffix)
    have hread : reading = read Int t ts := read_eq hκ h.tail t
    rw [ofTokens_cons, ofTokens_cons, ← hread]
    show reading.value.toList ++ ofTokens κ reading.rest = _
    rw [hbehind]

end Clause

theorem Stmt.ofTokensIn_eq {κ : Type} [Depth κ] {value : κ → Int} {tokens : List Token}
    (hκ : Faithful 0 (2 ^ 31) value) (h : Token.Countable tokens) :
    ofTokensIn κ tokens = ofTokens tokens :=
  congrArg ofClauses (Clause.ofTokens_eq hκ h)

/-! ### Linking -/

namespace Program

variable {κ : Type} [Depth κ] {value : κ → Int}

theorem closingIndex?_eq (hκ : Faithful 0 (2 ^ 32 - 1) value) {p : Program}
    (h : p.length < 2 ^ 32 - 1) :
    closingIndex? (one : κ) p = closingIndex? (one : Int) p := by
  have hone := hκ.one (by decide)
  have hkeeps := (keeps_endLoop hκ h).exact
  rw [hone] at hkeeps
  have hint : Faithful 0 (2 ^ 32 - 1) (id : Int → Int) := faithful_int 0 (2 ^ 32 - 1)
  have hsame : (if isZero (endLoop.run (one : κ) p).last then
      some (endLoop.run (one : κ) p).read.length else none) =
      if isZero (endLoop.run (one : Int) p).last then
        some (endLoop.run (one : Int) p).read.length else none := by
    rw [one_int, ← hkeeps, CountingRun.map, hκ.isZero, List.length_map]
  refine Option.map_injective Nat.succ_injective ?_
  calc (closingIndex? (one : κ) p).map (· + 1)
      = _ := map_closingIndex? hκ (by omega) (by omega)
    _ = _ := hsame
    _ = (closingIndex? (one : Int) p).map (· + 1) :=
      (map_closingIndex? hint (by decide) (show (1 : Int) + _ ≤ _ by omega)).symm

theorem loopEndIn_eq (hκ : Faithful 0 (2 ^ 32 - 1) value) {p : Program}
    (h : p.length < 2 ^ 32 - 1) (start : Nat) : loopEndIn κ p start = loopEnd p start := by
  have hdrop : (p.drop (start + 1)).length < 2 ^ 32 - 1 :=
    Nat.lt_of_le_of_lt (List.drop_sublist ..).length_le h
  rw [loopEndIn, loopEnd, loopEndIn, closingIndex?_eq hκ hdrop]

/-- **Where heads point does not depend on the words that are used for counting.** -/
theorem linkIn_eq (hκ : Faithful 0 (2 ^ 32 - 1) value) {p : Program}
    (h : p.length < 2 ^ 32 - 1) : linkIn κ p = link p := by
  simp only [linkIn, loopEndIn_eq hκ h]

end Program

/-! ### Texts -/

theorem Program.length_ofStmts_scan {text : String} (h : text.utf8ByteSize < 2 ^ 31) :
    (Instruction.ofStmts (Stmt.ofTokens (Token.scan text))).length < 2 ^ 32 - 1 := by
  have htokens := Token.length_scan_le text
  have hprogram := length_ofTokens_le (Token.scan text)
  rw [ofTokens, ofTokensIn, length_linkIn] at hprogram
  show (Instruction.ofStmts (Stmt.ofTokensIn Int (Token.scan text))).length < 2 ^ 32 - 1
  omega

/-- **Counters never wrap.** For a text with fewer than `2 ^ 31` bytes, what is found and what is
read is the same with words of fixed width and with integers. Wherever one of the loops starts, its
counts are those of the integers, each move of them is one in the integers, an unsigned count is
only moved down from above zero and the signed one from zero or above. And what is found there, what
is left behind and which end is closed are read off from these runs. -/
theorem counters_never_wrap {text : String} (h : text.utf8ByteSize < 2 ^ 31) :
    validateIn UInt32 Int32 (Token.scan text) = validate (Token.scan text) ∧
    Stmt.ofTokensIn UInt32 (Token.scan text) = Stmt.ofTokens (Token.scan text) ∧
    Program.ofTokensIn UInt32 (Token.scan text) = Program.ofTokens (Token.scan text) ∧
    Program.linkIn UInt64 (Instruction.ofStmts (Stmt.ofTokensIn UInt32 (Token.scan text))) =
      Program.ofTokens (Token.scan text) ∧
    (∀ tokens, tokens <:+ Token.scan text →
      (Check.conditionLoop.Keeps 0 unsigned32 one tokens ∧
        ∀ block, Check.condition block (one : UInt32) tokens =
          Check.conditionOutcome block (Check.conditionLoop.run (one : UInt32) tokens)) ∧
      (Check.argumentsLoop.Keeps 0 unsigned32 zero tokens ∧
        Check.arguments (zero : UInt32) tokens =
          Check.argumentsOutcome (Check.argumentsLoop.run (zero : UInt32) tokens)) ∧
      (Check.rightSideLoop.Keeps (-1) Int32.toInt zero tokens ∧
        Check.rightSide (zero : Int32) tokens =
          Check.rightSideOutcome (Check.rightSideLoop.run (zero : Int32) tokens)) ∧
      (Clause.skipLoop.Keeps 0 unsigned32 one tokens ∧
        (Clause.skipPastClose (one : UInt32) tokens).rest =
          (Clause.skipLoop.run (one : UInt32) tokens).rest)) ∧
    ∀ p, p <:+ Instruction.ofStmts (Stmt.ofTokens (Token.scan text)) →
      Program.endLoop.Keeps 0 unsigned32 one p ∧
      Program.endLoop.Keeps 0 unsigned64 one p ∧
      (Program.closingIndex? (one : UInt64) p).map (· + 1) =
        if isZero (Program.endLoop.run (one : UInt64) p).last then
          some (Program.endLoop.run (one : UInt64) p).read.length
        else none := by
  have hcountable := Token.countable_scan h
  have hlength := Program.length_ofStmts_scan h
  have hunsigned : Faithful 0 (2 ^ 31) unsigned32 :=
    faithful_unsigned32.mono (Int.le_refl 0) (by decide)
  have hsigned : Faithful (-1) (2 ^ 31 - 1) Int32.toInt :=
    faithful_signed32.mono (by decide) (Int.le_refl _)
  have hwide : Faithful 0 (2 ^ 32 - 1) unsigned64 :=
    faithful_unsigned64.mono (Int.le_refl 0) (by decide)
  have hstmts := Stmt.ofTokensIn_eq hunsigned hcountable
  refine ⟨Check.program_eq hunsigned hsigned hcountable [], hstmts, ?_, ?_,
    fun tokens htokens => ?_, fun p hp => ?_⟩
  · rw [Program.ofTokensIn, hstmts]
    exact Program.linkIn_eq faithful_unsigned32 hlength
  · rw [hstmts]
    exact Program.linkIn_eq hwide hlength
  · have hrest := hcountable.of_suffix htokens
    have hshort := hrest.short
    refine ⟨⟨Check.keeps_conditionLoop hunsigned hrest, fun block => ?_⟩,
      ⟨Check.keeps_argumentsLoop hunsigned hrest, Check.arguments_eq_outcome _ _⟩,
      ⟨Check.keeps_rightSideLoop hsigned hrest, Check.rightSide_eq_outcome (by decide) _⟩,
      ⟨Clause.keeps_skipLoop hunsigned hrest, ?_⟩⟩
    · exact Check.condition_eq_outcome block (by decide)
    · have hone : unsigned32 one = 1 := rfl
      exact Clause.rest_skipPastClose_eq hunsigned (by omega) (by omega)
  · have hshort := Nat.lt_of_le_of_lt hp.length_le hlength
    have hone : unsigned64 one = 1 := rfl
    exact ⟨Program.keeps_endLoop faithful_unsigned32 hshort, Program.keeps_endLoop hwide hshort,
      Program.map_closingIndex? hwide (by omega) (by omega)⟩

/-- A loop in a loop, and a `write` with a parenthesis too many. Among the further arguments the
count goes up to one and back, and the loop ends in front of the parenthesis that would move it
below zero. The end of the outer loop is found where the count gets to zero. -/
theorem counters_never_wrap_stray_close :
    validateIn UInt32 Int32 (Token.scan
        "while (a) while (b) end-while end-while write(\"c\", (1))) ::") =
      validate (Token.scan "while (a) while (b) end-while end-while write(\"c\", (1))) ::") ∧
    (Check.argumentsLoop.Keeps 0 unsigned32 zero ((Token.scan
        "while (a) while (b) end-while end-while write(\"c\", (1))) ::").drop 14) ∧
      ((Check.argumentsLoop.run (zero : UInt32) ((Token.scan
        "while (a) while (b) end-while end-while write(\"c\", (1))) ::").drop 14)).read.map fun p =>
          (p.1.lexeme, unsigned32 p.2)) = [("(", 0), ("1", 1), (")", 1)]) ∧
    Program.endLoop.Keeps 0 unsigned64 one ((Instruction.ofStmts (Stmt.ofTokens (Token.scan
        "while (a) while (b) end-while end-while write(\"c\", (1))) ::"))).drop 1) ∧
    ((Program.endLoop.run (one : UInt64) ((Instruction.ofStmts (Stmt.ofTokens (Token.scan
        "while (a) while (b) end-while end-while write(\"c\", (1))) ::"))).drop 1)).read.map fun p =>
          (p.1.name, unsigned64 p.2)) = [("while", 1), ("end-while", 2), ("end-while", 1)] := by
  obtain ⟨hvalidate, -, -, -, hloops, hend⟩ :=
    counters_never_wrap (show
      "while (a) while (b) end-while end-while write(\"c\", (1))) ::".utf8ByteSize < 2 ^ 31 by
      decide +kernel)
  exact ⟨hvalidate, ⟨(hloops _ (List.drop_suffix 14 _)).2.1.1, by decide +kernel⟩,
    (hend _ (List.drop_suffix 1 _)).2.1, by decide +kernel⟩

end Stepwise
