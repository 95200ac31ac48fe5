import Mathlib
import Stepwise.Instruction
import Stepwise.Proofs.Clean
import Stepwise.Proofs.Counting
import Stepwise.Stmt.OfTokens

/-!
# The loops that count

Open parentheses are counted at four places and open loops at one. Each of them is a `CountingLoop`
with its own end, and whatever such a place finds and leaves behind can be read off from the run of
its loop. This is so for every type of counters, as far as the checker is concerned, since it looks
at the count behind every token. The other two places look at it only where it was moved down. There
a word that is moved up to zero goes unnoticed, and it has to be known that this does not happen.

## Main definitions

* `Check.conditionLoop`, `Check.argumentsLoop`, `Check.rightSideLoop`, `Clause.skipLoop`,
  `Program.endLoop` — the loops
* `Check.conditionOutcome`, `Check.argumentsOutcome`, `Check.rightSideOutcome` — what the checker
  makes of a run

## Main results

* `Check.condition_eq_outcome`, `Check.arguments_eq_outcome`, `Check.rightSide_eq_outcome` — what is
  found and what is left, from the run of the loop
* `Clause.rest_skipPastClose_eq` — what is left behind the head of a loop
* `Program.map_closingIndex?` — the end that closes a loop
-/

namespace Stepwise

open Depth

/-! ### The loops -/

/-- What a token does to the number of open parentheses. Whatever does not open closes. -/
def Token.parenMove (t : Token) : Move :=
  if t.kind = .paren then if t.lexeme = "(" then .up else .down else .stay

namespace Token

variable {κ : Type} [Depth κ] {t : Token}

theorem apply_parenMove_of_paren (h : t.kind = .paren) (d : κ) :
    t.parenMove.apply d = Check.depthAfter t d := by
  rw [parenMove, if_pos h, Check.depthAfter]
  split <;> rfl

theorem apply_parenMove_of_ne (h : t.kind ≠ .paren) (d : κ) : t.parenMove.apply d = d := by
  rw [parenMove, if_neg h]
  rfl

end Token

namespace Check

/-- The loop over a condition, which ends where no parenthesis is open. -/
def conditionLoop : CountingLoop Token := ⟨fun sign _ => sign == .eq, Token.parenMove⟩

/-- The loop over the further arguments of `write`, which ends in front of a right parenthesis if no
parenthesis is open, and in front of the end of the statement. -/
def argumentsLoop : CountingLoop Token :=
  ⟨fun sign t => t.kind == .terminator || (sign == .eq && t.isParen ")"), Token.parenMove⟩

/-- The loop over the right side of an assignment, which ends behind a parenthesis that closes
nothing, and in front of the end of the statement. -/
def rightSideLoop : CountingLoop Token :=
  ⟨fun sign t => t.kind == .terminator || sign == .lt, Token.parenMove⟩

end Check

/-- The loop that leaves the head of a loop behind. It ends where no parenthesis is open, and in
front of a word of a loop and the end of a statement. -/
def Clause.skipLoop : CountingLoop Token where
  stops sign t := sign == .eq || t.isLoopWord || t.kind == .terminator
  move t := if t.isParen "(" then .up else if t.isParen ")" then .down else .stay

/-- The loop that looks for the end of a loop, which ends where no loop is open. -/
def Program.endLoop : CountingLoop Instruction where
  stops sign _ := sign == .eq
  move
    | .loop .. => .up
    | .loopEnd => .down
    | _ => .stay

/-! ### What is read off from a run -/

namespace Check

open Grammar Outcome

section

variable {κ : Type} {t : Token} {ts : List Token} {d : κ}

/-- What is found at a token of a run that may have parentheses and the given kinds. -/
def foundIn (kinds : List Token.Kind) (fault : String → Fault) (t : Token) : List Diagnostic :=
  if t.kind = .paren ∨ t.kind ∈ kinds then [] else [faultAt t (fault t.lexeme)]

theorem foundIn_of_paren {kinds : List Token.Kind} {fault : String → Fault}
    (h : t.kind = .paren) : foundIn kinds fault t = [] := if_pos (.inl h)

theorem foundIn_of_mem {kinds : List Token.Kind} {fault : String → Fault}
    (h : t.kind ∈ kinds) : foundIn kinds fault t = [] := if_pos (.inr h)

theorem foundIn_of_notMem {kinds : List Token.Kind} {fault : String → Fault}
    (hparen : t.kind ≠ .paren) (h : t.kind ∉ kinds) :
    foundIn kinds fault t = [faultAt t (fault t.lexeme)] := if_neg (not_or.mpr ⟨hparen, h⟩)

/-- The outcome of the further arguments of `write`, from the run of their loop. -/
def argumentsOutcome (r : CountingRun Token κ) : Outcome where
  complete := true
  diagnostics := r.read.flatMap fun p => foundIn argumentKinds .inWrite p.1
  rest := r.rest

theorem argumentsOutcome_cons (t : Token) (d : κ) (r : CountingRun Token κ) :
    argumentsOutcome (r.cons t d) =
      (argumentsOutcome r).report (foundIn argumentKinds .inWrite t) := by
  simp only [argumentsOutcome, CountingRun.cons, report, List.flatMap_cons]

variable [Depth κ]

/-- The outcome of a condition, from the run of its loop. -/
def conditionOutcome (block : Block) (r : CountingRun Token κ) : Outcome where
  complete := isZero r.last
  diagnostics :=
    (r.read.flatMap fun p => foundIn conditionKinds (.inCondition block) p.1) ++
      if isZero r.last then [] else [.ofFault (.openCondition block) none]
  rest := r.rest

/-- What is found where a parenthesis closes nothing. -/
def strayClose (t : Token) (behind : κ) : List Diagnostic :=
  if sign behind = .lt then [faultAt t .strayClose] else []

/-- The outcome of the right side of an assignment, from the run of its loop. -/
def rightSideOutcome (r : CountingRun Token κ) : Outcome where
  complete := true
  diagnostics :=
    (r.read.flatMap fun p => foundIn valueKinds .inAssignment p.1 ++
      strayClose p.1 (p.1.parenMove.apply p.2)) ++ openAssignment r.last r.rest
  rest := r.rest

theorem report_nil (o : Outcome) : o.report [] = o := rfl

theorem conditionOutcome_cons (block : Block) (t : Token) (d : κ) (r : CountingRun Token κ) :
    conditionOutcome block (r.cons t d) =
      (conditionOutcome block r).report (foundIn conditionKinds (.inCondition block) t) := by
  simp only [conditionOutcome, CountingRun.cons, report, List.flatMap_cons, List.append_assoc]
  rfl

theorem rightSideOutcome_cons (t : Token) (d : κ) (r : CountingRun Token κ) :
    rightSideOutcome (r.cons t d) =
      (rightSideOutcome r).report
        (foundIn valueKinds .inAssignment t ++ strayClose t (t.parenMove.apply d)) := by
  simp only [rightSideOutcome, CountingRun.cons, report, List.flatMap_cons, List.append_assoc]

/-- **A condition is what its loop makes of it.** -/
theorem condition_eq_outcome (block : Block) (h : isZero d = false) :
    condition block d ts = conditionOutcome block (conditionLoop.run d ts) := by
  induction ts generalizing d with
  | nil =>
    rw [condition, CountingLoop.run_nil, conditionOutcome, h]
    rfl
  | cons t ts ih =>
    rw [CountingLoop.run_of_goesOn (show conditionLoop.stops (sign d) t = false from h),
      conditionOutcome_cons]
    show _ = (conditionOutcome block (conditionLoop.run (t.parenMove.apply d) ts)).report _
    by_cases hparen : t.kind = .paren
    · rw [condition_of_paren block hparen, foundIn_of_paren hparen, report_nil,
        Token.apply_parenMove_of_paren hparen]
      cases hzero : isZero (depthAfter t d) with
      | true =>
        rw [if_pos rfl, CountingLoop.run_of_forall_stops fun _ => hzero, conditionOutcome, hzero]
        rfl
      | false =>
        rw [if_neg Bool.false_ne_true]
        exact ih hzero
    · rw [Token.apply_parenMove_of_ne hparen, ← ih h]
      by_cases hkind : t.kind ∈ conditionKinds
      · rw [condition_of_mem block hkind, foundIn_of_mem hkind, report_nil]
      · rw [condition_of_notMem block hparen hkind, foundIn_of_notMem hparen hkind]

/-- **The further arguments of `write` are what their loop makes of them.** -/
theorem arguments_eq_outcome (d : κ) (ts : List Token) :
    arguments d ts = argumentsOutcome (argumentsLoop.run d ts) := by
  induction ts generalizing d with
  | nil =>
    rw [arguments]
    rfl
  | cons t ts ih =>
    by_cases hstop : t.kind = .terminator
    · rw [arguments_of_terminator hstop, CountingLoop.run_of_stops]
      · rfl
      · simp [argumentsLoop, hstop]
    by_cases hclose : isZero d = true ∧ t.isParen ")" = true
    · rw [arguments, if_pos (.inr hclose), CountingLoop.run_of_stops]
      · rfl
      · have hsign : sign d = .eq := beq_iff_eq.mp hclose.1
        simp [argumentsLoop, hsign, hclose.2]
    · have hgoes : argumentsLoop.stops (sign d) t = false := by
        simpa [argumentsLoop, isZero, hstop] using hclose
      rw [CountingLoop.run_of_goesOn hgoes, argumentsOutcome_cons]
      show _ = (argumentsOutcome (argumentsLoop.run (t.parenMove.apply d) ts)).report _
      rw [← ih]
      by_cases hparen : t.kind = .paren
      · rw [arguments_of_paren hparen fun hzero hright => hclose ⟨hzero, hright⟩,
          foundIn_of_paren hparen, report_nil, Token.apply_parenMove_of_paren hparen]
      rw [Token.apply_parenMove_of_ne hparen]
      by_cases hkind : t.kind ∈ argumentKinds
      · rw [arguments_of_mem hkind, foundIn_of_mem hkind, report_nil]
      · rw [arguments_of_notMem hparen hstop hkind, foundIn_of_notMem hparen hkind]

theorem strayClose_of_lt (t : Token) (h : sign d = .lt) :
    strayClose t d = [faultAt t .strayClose] := if_pos h

theorem strayClose_of_ne (t : Token) (h : sign d ≠ .lt) : strayClose t d = [] := if_neg h

theorem openAssignment_of_lt (h : sign d = .lt) (ts : List Token) : openAssignment d ts = [] := by
  rw [openAssignment, h]
  rfl

/-- **The right side of an assignment is what its loop makes of it.** -/
theorem rightSide_eq_outcome (h : sign d ≠ .lt) (ts : List Token) :
    rightSide d ts = rightSideOutcome (rightSideLoop.run d ts) := by
  induction ts generalizing d with
  | nil =>
    rw [rightSide]
    rfl
  | cons t ts ih =>
    by_cases hstop : t.kind = .terminator
    · rw [rightSide_of_terminator hstop, CountingLoop.run_of_stops]
      · rfl
      · simp [rightSideLoop, hstop]
    have hgoes : rightSideLoop.stops (sign d) t = false := by
      simp [rightSideLoop, hstop, h]
    rw [CountingLoop.run_of_goesOn hgoes, rightSideOutcome_cons]
    show _ = (rightSideOutcome (rightSideLoop.run (t.parenMove.apply d) ts)).report _
    by_cases hparen : t.kind = .paren
    · rw [rightSide_of_paren hparen, foundIn_of_paren hparen, List.nil_append,
        Token.apply_parenMove_of_paren hparen]
      by_cases hneg : sign (depthAfter t d) = .lt
      · have hstops : ∀ t', rightSideLoop.stops (sign (depthAfter t d)) t' = true := by
          intro t'
          simp [rightSideLoop, hneg]
        rw [if_pos hneg, CountingLoop.run_of_forall_stops hstops, strayClose_of_lt t hneg,
          rightSideOutcome, openAssignment_of_lt hneg]
        rfl
      · rw [if_neg hneg, strayClose_of_ne t hneg, report_nil]
        exact ih hneg
    · rw [Token.apply_parenMove_of_ne hparen, strayClose_of_ne t h, List.append_nil, ← ih h]
      by_cases hkind : t.kind ∈ valueKinds
      · rw [rightSide_of_mem hkind, foundIn_of_mem hkind, report_nil]
      · rw [rightSide_of_notMem hparen hstop hkind, foundIn_of_notMem hparen hkind]

end

end Check

section

variable {κ : Type} [Depth κ] {high : Int} {value : κ → Int} {d : κ}

theorem Clause.rest_skipPastClose_cons {t : Token} (ts : List Token)
    (h : ¬ (t.isLoopWord = true ∨ t.kind = .terminator)) :
    (skipPastClose d (t :: ts)).rest =
      if skipLoop.move t = .down ∧ isZero ((skipLoop.move t).apply d) = true then ts
      else (skipPastClose ((skipLoop.move t).apply d) ts).rest := by
  rw [skipPastClose, if_neg h]
  by_cases hleft : t.isParen "(" = true
  · have hmove : skipLoop.move t = .up := if_pos hleft
    rw [if_pos hleft, hmove, if_neg (mt And.left (by decide))]
    rfl
  rw [if_neg hleft]
  by_cases hright : t.isParen ")" = true
  · have hmove : skipLoop.move t = .down := (if_neg hleft).trans (if_pos hright)
    rw [if_pos hright, hmove]
    cases hzero : isZero (down d) with
    | true => simp only [Move.apply, hzero, if_true, and_self, Reading.rest_skip]
    | false =>
      simp only [Move.apply, hzero, Bool.false_eq_true, if_false, and_false, Reading.rest_behind]
  · have hmove : skipLoop.move t = .stay := (if_neg hleft).trans (if_neg hright)
    rw [if_neg hright, hmove, if_neg (mt And.left (by decide))]
    rfl

/-- **What is left behind the head of a loop is what its loop leaves.** The count is looked at only
where it was moved down, so it must not be moved up to zero. -/
theorem Clause.rest_skipPastClose_eq (hκ : Faithful 0 high value) {ts : List Token}
    (hd : 0 < value d) (hhigh : value d + ts.length ≤ high) :
    (skipPastClose d ts).rest = (skipLoop.run d ts).rest := by
  induction ts generalizing d with
  | nil => rfl
  | cons t ts ih =>
    rw [List.length_cons, Int.natCast_succ] at hhigh
    by_cases hstop : t.isLoopWord = true ∨ t.kind = .terminator
    · rw [skipPastClose, if_pos hstop, CountingLoop.run_of_stops]
      · rfl
      · simpa [skipLoop, or_assoc] using .inr hstop
    have hgoes : skipLoop.stops (sign d) t = false := by
      have hsign : (sign d == .eq) = false := hκ.isZero_eq_false hd
      simpa [skipLoop, hsign] using hstop
    rw [rest_skipPastClose_cons ts hstop, CountingLoop.run_of_goesOn hgoes]
    show _ = (skipLoop.run ((skipLoop.move t).apply d) ts).rest
    rcases hκ.closes_or_pos (skipLoop.move t) hd (by omega) with hclose | ⟨hpos, hopen⟩
    · have hstops : ∀ t', skipLoop.stops (sign ((skipLoop.move t).apply d)) t' = true := by
        intro t'
        rw [beq_iff_eq.mp hclose.2]
        rfl
      rw [if_pos hclose, CountingLoop.run_of_forall_stops hstops]
    · have hle := hκ.apply_le (skipLoop.move t) hd (by omega)
      rw [if_neg hopen]
      exact ih hpos (by omega)

theorem Program.closingIndex?_cons (i : Instruction) (p : Program) :
    closingIndex? d (i :: p) =
      if endLoop.move i = .down ∧ isZero ((endLoop.move i).apply d) = true then some 0
      else (closingIndex? ((endLoop.move i).apply d) p).map (· + 1) := by
  cases i with
  | loopEnd =>
    rw [closingIndex?]
    exact if_congr (and_iff_right rfl).symm rfl rfl
  | loop condition stop | assign target value | write args =>
    exact (if_neg (mt And.left Move.noConfusion)).symm

/-- **The end that closes a loop is where its loop ends.** It is the last instruction that is read
if the count is zero then. -/
theorem Program.map_closingIndex? (hκ : Faithful 0 high value) {p : Program} (hd : 0 < value d)
    (hhigh : value d + p.length ≤ high) :
    (closingIndex? d p).map (· + 1) =
      if isZero (endLoop.run d p).last then some (endLoop.run d p).read.length else none := by
  induction p generalizing d with
  | nil =>
    rw [closingIndex?, CountingLoop.run_nil, hκ.isZero_eq_false hd]
    rfl
  | cons i p ih =>
    rw [List.length_cons, Int.natCast_succ] at hhigh
    have hgoes : endLoop.stops (sign d) i = false := hκ.isZero_eq_false hd
    rw [closingIndex?_cons, CountingLoop.run_of_goesOn hgoes]
    rcases hκ.closes_or_pos (endLoop.move i) hd (by omega) with hclose | ⟨hpos, hopen⟩
    · rw [if_pos hclose, CountingLoop.run_of_forall_stops fun _ => hclose.2]
      exact (if_pos hclose.2).symm
    · have hle := hκ.apply_le (endLoop.move i) hd (by omega)
      rw [if_neg hopen, ih hpos (by omega)]
      show Option.map _ _ = if isZero (endLoop.run _ p).last then some (_ + 1) else none
      split <;> rfl

end

end Stepwise
