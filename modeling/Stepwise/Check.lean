import Stepwise.Depth
import Stepwise.Diagnostic

/-!
# Checking a program

The checker walks once over the tokens and reports what does not fit. It never gives up: what is
wrong with one statement is reported, and checking goes on behind it.

Each piece of a statement is checked by a function from the tokens in front of it to an `Outcome`:
whether the piece was all there, what was found, and the tokens behind it. A statement is a chain
of pieces, and the first that is not all there ends the chain. Pieces that stop at a wrong token
do not consume it.

The checker does not build anything. It knows statements by their first token, and inside a
condition, an argument list or the right side of an assignment it looks only at the kinds of the
tokens and at the balance of the parentheses.

## Main definitions

* `Outcome` — what checking a piece leaves behind
* `validate` — the diagnostics of a token list; a program is accepted if there are none
* `notExecutedNotes` — the warnings about statements that do nothing

## Main results

* `Check.statement_suffix` — checking a statement leaves an end of the tokens behind it
-/

namespace Stepwise

namespace Check

/-- What checking the front of a token list leaves behind. -/
structure Outcome where
  /-- Whether the piece was all there. -/
  complete : Bool
  /-- What was found, in order. -/
  diagnostics : List Diagnostic
  /-- The tokens behind the piece. -/
  rest : List Token

namespace Outcome

/-- The outcome with something that was found before. -/
def report (ds : List Diagnostic) (o : Outcome) : Outcome :=
  { o with diagnostics := ds ++ o.diagnostics }

/-- Checks a further piece if the one before was all there. -/
def andThen (o : Outcome) (next : List Token → Outcome) : Outcome :=
  if o.complete then (next o.rest).report o.diagnostics else o

@[simp] theorem rest_report (ds : List Diagnostic) (o : Outcome) : (o.report ds).rest = o.rest :=
  rfl

@[simp] theorem complete_report (ds : List Diagnostic) (o : Outcome) :
    (o.report ds).complete = o.complete := rfl

@[simp] theorem diagnostics_report (ds : List Diagnostic) (o : Outcome) :
    (o.report ds).diagnostics = ds ++ o.diagnostics := rfl

theorem andThen_of_complete {o : Outcome} (h : o.complete = true) (next : List Token → Outcome) :
    o.andThen next = (next o.rest).report o.diagnostics := by simp [andThen, h]

theorem andThen_of_not_complete {o : Outcome} (h : o.complete = false)
    (next : List Token → Outcome) : o.andThen next = o := by simp [andThen, h]

theorem rest_andThen_suffix {o : Outcome} {next : List Token → Outcome} {tokens : List Token}
    (h : o.rest <:+ tokens) (hnext : ∀ ts, (next ts).rest <:+ ts) :
    (o.andThen next).rest <:+ tokens := by
  unfold andThen
  split
  · exact (hnext _).trans h
  · exact h

end Outcome

/-- The offset of the token in front, nothing at the end of the text. -/
def offsetOf (tokens : List Token) : Option Nat := tokens.head?.map Token.offset

/-- A fault at a token. -/
def faultAt (t : Token) (f : Fault) : Diagnostic := .ofFault f (some t.offset)

/-- A fault in front of the remaining tokens. -/
def faultBefore (tokens : List Token) (f : Fault) : Diagnostic := .ofFault f (offsetOf tokens)

/-! ### Single tokens -/

/-- Asks for a token and consumes it only if it is the one. -/
def expect (w : Wanted) : List Token → Outcome
  | [] => ⟨false, [.ofFault (.wanted w none) none], []⟩
  | t :: ts =>
    if w.accepts t then ⟨true, [], ts⟩
    else ⟨false, [faultAt t (.wanted w (some t.lexeme))], t :: ts⟩

/-- Asks for the token that ends a statement, and goes on without it. -/
def expectTerminator (f : Fault) : List Token → Outcome
  | [] => ⟨true, [.ofFault f none], []⟩
  | t :: ts =>
    if t.kind = .terminator then ⟨true, [], ts⟩ else ⟨true, [faultAt t f], t :: ts⟩

/-- Asks for the parenthesis that closes the arguments of `write`. -/
def closeWrite : List Token → Outcome
  | [] => ⟨false, [.ofFault .openWrite none], []⟩
  | t :: ts =>
    if t.isParen ")" then ⟨true, [], ts⟩ else ⟨false, [faultAt t .openWrite], t :: ts⟩

theorem expect_suffix (w : Wanted) (tokens : List Token) : (expect w tokens).rest <:+ tokens := by
  cases tokens with
  | nil => exact List.suffix_refl _
  | cons t ts =>
    simp only [expect]
    split
    · exact List.suffix_cons ..
    · exact List.suffix_refl _

theorem expectTerminator_suffix (f : Fault) (tokens : List Token) :
    (expectTerminator f tokens).rest <:+ tokens := by
  cases tokens with
  | nil => exact List.suffix_refl _
  | cons t ts =>
    simp only [expectTerminator]
    split
    · exact List.suffix_cons ..
    · exact List.suffix_refl _

theorem closeWrite_suffix (tokens : List Token) : (closeWrite tokens).rest <:+ tokens := by
  cases tokens with
  | nil => exact List.suffix_refl _
  | cons t ts =>
    simp only [closeWrite]
    split
    · exact List.suffix_cons ..
    · exact List.suffix_refl _

/-! ### Runs of tokens

The three runs differ in the kinds that may stand in them, in what ends them, and in what they do
about a parenthesis too many. -/

variable {κ : Type} [Depth κ]

/-- The count behind a parenthesis. Whatever does not open closes. -/
def depthAfter (t : Token) (depth : κ) : κ :=
  if t.lexeme = "(" then Depth.up depth else Depth.down depth

/-- The condition of a block behind its first parenthesis, up to the one that closes it. -/
def condition (block : Block) (depth : κ) : List Token → Outcome
  | [] => ⟨false, [.ofFault (.openCondition block) none], []⟩
  | t :: ts =>
    match t.kind with
    | .paren =>
      let depth := depthAfter t depth
      if Depth.isZero depth then ⟨true, [], ts⟩ else condition block depth ts
    | .number | .identifier | .relation | .logic => condition block depth ts
    | _ => (condition block depth ts).report [faultAt t (.inCondition block t.lexeme)]

/-- The further arguments of `write`, up to the parenthesis that closes them or the end of the
statement. -/
def arguments (depth : κ) : List Token → Outcome
  | [] => ⟨true, [], []⟩
  | t :: ts =>
    if t.kind = .terminator ∨ (Depth.isZero depth ∧ t.isParen ")") then ⟨true, [], t :: ts⟩
    else
      match t.kind with
      | .paren => arguments (depthAfter t depth) ts
      | .number | .identifier | .arithmetic | .comma => arguments depth ts
      | _ => (arguments depth ts).report [faultAt t (.inWrite t.lexeme)]

/-- What is found where the right side of an assignment ends with open parentheses. -/
def openAssignment (depth : κ) (tokens : List Token) : List Diagnostic :=
  if Depth.sign depth = .gt then [faultBefore tokens .openAssignment] else []

/-- The right side of an assignment, up to the end of the statement or a parenthesis that closes
nothing. -/
def rightSide (depth : κ) : List Token → Outcome
  | [] => ⟨true, openAssignment depth [], []⟩
  | t :: ts =>
    match t.kind with
    | .terminator => ⟨true, openAssignment depth (t :: ts), t :: ts⟩
    | .paren =>
      let depth := depthAfter t depth
      if Depth.sign depth = .lt then ⟨true, [faultAt t .strayClose], ts⟩ else rightSide depth ts
    | .number | .identifier | .arithmetic | .string => rightSide depth ts
    | _ => (rightSide depth ts).report [faultAt t (.inAssignment t.lexeme)]

theorem condition_suffix (block : Block) (depth : κ) (tokens : List Token) :
    (condition block depth tokens).rest <:+ tokens := by
  induction tokens generalizing depth with
  | nil => exact List.suffix_refl _
  | cons t ts ih =>
    have tail : ts <:+ t :: ts := List.suffix_cons ..
    unfold condition
    split
    · dsimp only
      split
      · exact tail
      · exact (ih _).trans tail
    all_goals exact (ih _).trans tail

theorem arguments_suffix (depth : κ) (tokens : List Token) :
    (arguments depth tokens).rest <:+ tokens := by
  induction tokens generalizing depth with
  | nil => exact List.suffix_refl _
  | cons t ts ih =>
    have tail : ts <:+ t :: ts := List.suffix_cons ..
    unfold arguments
    split
    · exact List.suffix_refl _
    · split <;> exact (ih _).trans tail

theorem rightSide_suffix (depth : κ) (tokens : List Token) :
    (rightSide depth tokens).rest <:+ tokens := by
  induction tokens generalizing depth with
  | nil => exact List.suffix_refl _
  | cons t ts ih =>
    have tail : ts <:+ t :: ts := List.suffix_cons ..
    unfold rightSide
    split
    · exact List.suffix_refl _
    · dsimp only
      split
      · exact tail
      · exact (ih _).trans tail
    all_goals exact (ih _).trans tail

/-! ### Statements -/

variable (κ σ : Type) [Depth κ] [Depth σ]

/-- The condition of a block with both its parentheses. -/
def header (block : Block) (tokens : List Token) : Outcome :=
  (expect (.lexeme .paren "(") tokens).andThen (condition block (Depth.one : κ))

/-- What stands behind `write`. -/
def write (tokens : List Token) : Outcome :=
  let further : List Token → Outcome
    | [] => ⟨true, [], []⟩
    | t :: ts => if t.kind = .comma then arguments (Depth.zero : κ) ts else ⟨true, [], t :: ts⟩
  (expect (.lexeme .paren "(") tokens)
    |>.andThen (expect (.kind .string))
    |>.andThen further
    |>.andThen closeWrite
    |>.andThen (expectTerminator .unendedWrite)

/-- What stands behind `capture`. -/
def capture (tokens : List Token) : Outcome :=
  (expect (.lexeme .paren "(") tokens)
    |>.andThen (expect (.kind .identifier))
    |>.andThen (expect (.lexeme .paren ")"))
    |>.andThen (expectTerminator .unendedCapture)

/-- What stands behind the name on the left of an assignment. -/
def assignment (tokens : List Token) : Outcome :=
  (expect (.kind .assign) tokens)
    |>.andThen (rightSide (Depth.zero : σ))
    |>.andThen (expectTerminator .unendedAssignment)

/-- What stands behind a word that closes a block: nothing. The innermost open block is closed,
whichever it is, and a fault is found if it is not of the right kind. -/
def close (block : Block) (t : Token) (blocks : List Block) (tokens : List Token) :
    Outcome × List Block :=
  let found := if blocks.head? = some block then [] else [faultAt t (.unmatchedCloser block)]
  (⟨true, found, tokens⟩, blocks.tail)

/-- Checks the statement that begins with `t`, where `blocks` are open, innermost first. Answers
also with the blocks that are open behind it: a block is opened only if its head was all there. -/
def statement (blocks : List Block) (t : Token) (tokens : List Token) : Outcome × List Block :=
  let opened (block : Block) (o : Outcome) := (o, if o.complete then block :: blocks else blocks)
  if t.isWord "if" then
    opened .conditional ((header κ .conditional tokens).andThen (expect (.lexeme .keyword "then")))
  else if t.isWord "while" then opened .loop (header κ .loop tokens)
  else if t.isWord "end-if" then close .conditional t blocks tokens
  else if t.isWord "end-while" then close .loop t blocks tokens
  else if t.isWord "write" then (write κ tokens, blocks)
  else if t.isWord "capture" then (capture tokens, blocks)
  else if t.kind = .identifier then (assignment σ tokens, blocks)
  else if t.kind = .terminator then (⟨true, [], tokens⟩, blocks)
  else (⟨true, [faultAt t (.noStatement t.lexeme)], tokens⟩, blocks)

theorem header_suffix (block : Block) (tokens : List Token) :
    (header κ block tokens).rest <:+ tokens :=
  Outcome.rest_andThen_suffix (expect_suffix ..) (condition_suffix block _)

theorem write_suffix (tokens : List Token) : (write κ tokens).rest <:+ tokens := by
  refine Outcome.rest_andThen_suffix (Outcome.rest_andThen_suffix (Outcome.rest_andThen_suffix
    (Outcome.rest_andThen_suffix (expect_suffix ..) (expect_suffix _)) fun ts => ?_)
    closeWrite_suffix) (expectTerminator_suffix _)
  cases ts with
  | nil => exact List.suffix_refl _
  | cons t ts =>
    dsimp only
    split
    · exact (arguments_suffix ..).trans (List.suffix_cons ..)
    · exact List.suffix_refl _

theorem capture_suffix (tokens : List Token) : (capture tokens).rest <:+ tokens :=
  Outcome.rest_andThen_suffix (Outcome.rest_andThen_suffix (Outcome.rest_andThen_suffix
    (expect_suffix ..) (expect_suffix _)) (expect_suffix _)) (expectTerminator_suffix _)

theorem assignment_suffix (tokens : List Token) : (assignment σ tokens).rest <:+ tokens :=
  Outcome.rest_andThen_suffix (Outcome.rest_andThen_suffix (expect_suffix ..)
    (rightSide_suffix _)) (expectTerminator_suffix _)

/-- Checking a statement leaves an end of the tokens behind its first. -/
theorem statement_suffix (blocks : List Block) (t : Token) (tokens : List Token) :
    (statement κ σ blocks t tokens).1.rest <:+ tokens := by
  unfold statement
  dsimp only
  split
  · exact Outcome.rest_andThen_suffix (header_suffix ..) (expect_suffix _)
  split
  · exact header_suffix ..
  split
  · exact List.suffix_refl _
  split
  · exact List.suffix_refl _
  split
  · exact write_suffix ..
  split
  · exact capture_suffix _
  split
  · exact assignment_suffix ..
  split <;> exact List.suffix_refl _

/-! ### Programs -/

/-- The diagnostics of a token list inside open blocks. Of several blocks that are never closed
only the innermost is reported. -/
def program (blocks : List Block) : List Token → List Diagnostic
  | [] =>
    match blocks with
    | [] => []
    | block :: _ => [.ofFault (.openBlock block) none]
  | t :: ts =>
    let checked := statement κ σ blocks t ts
    checked.1.diagnostics ++ program checked.2 checked.1.rest
termination_by tokens => tokens.length
decreasing_by
  have := (statement_suffix κ σ blocks t ts).length_le
  simp only [List.length_cons]
  omega

@[simp] theorem program_nil (blocks : List Block) :
    program κ σ blocks [] = (blocks.head?.map fun b => .ofFault (.openBlock b) none).toList := by
  cases blocks <;> simp [program]

theorem program_cons (blocks : List Block) (t : Token) (ts : List Token) :
    program κ σ blocks (t :: ts) =
      (statement κ σ blocks t ts).1.diagnostics ++
        program κ σ (statement κ σ blocks t ts).2 (statement κ σ blocks t ts).1.rest := by
  rw [program]

end Check

/-- The diagnostics of a token list, with parentheses counted in `κ` where the count cannot go
below zero and in `σ` where it can. -/
def validateIn (κ σ : Type) [Depth κ] [Depth σ] (tokens : List Token) : List Diagnostic :=
  Check.program κ σ [] tokens

/-- The diagnostics of a token list. -/
abbrev validate (tokens : List Token) : List Diagnostic := validateIn Int Int tokens

/-- Whether nothing is wrong with a token list. -/
def accepts (tokens : List Token) : Bool := (validate tokens).isEmpty

@[simp] theorem accepts_iff (tokens : List Token) :
    accepts tokens = true ↔ validate tokens = [] := by simp [accepts]

/-- A warning for every statement that is checked but does nothing when the program runs. -/
def notExecutedNotes (tokens : List Token) : List Diagnostic :=
  (tokens.filter fun t => t.kind = .keyword ∧ (t.lexeme = "if" ∨ t.lexeme = "capture")).map fun t =>
    .ofFault (.notExecuted t.lexeme) (some t.offset)

end Stepwise
