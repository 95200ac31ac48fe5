import Stepwise.Diagnostic
import Stepwise.Proofs.Kinds
import Mathlib.Logic.Basic

/-!
# The grammar of programs

What a well-formed program is, said without a checker. A program is a list of phrases. A phrase is
a statement without a body, or the head or the end of a block, and the phrases of a program are
nested: between a head and its end there is again a program.

The grammar is loose inside statements. A condition, the right side of an assignment and the
further arguments of `write` are runs of tokens of a few kinds, and all that is asked of a run is
that its parentheses are balanced. So `x = 1 2 + ::` and `write("", ,,) ::` are well formed.

Being nested is also a matter of reading the phrases once with a stack of open blocks, and that is
how a checker has to see it. The two are the same, `nested_iff_foldlM`.

## Main definitions

* `Token.Balanced` — as many parentheses closed as opened, and none before it is opened
* `Grammar.Phrase` — the statements, heads and ends
* `Grammar.Nested` — heads and ends match
* `Grammar.Derives` — the tokens of nested phrases

## Main results

* `Grammar.nested_iff_foldlM` — phrases are nested if and only if a stack of open blocks that
  starts empty ends empty
-/

namespace Stepwise

namespace Token

/-! ### Balance -/

/-- How a token changes the number of open parentheses. -/
def weight (t : Token) : Int := if t.isParen "(" then 1 else if t.isParen ")" then -1 else 0

theorem weight_of_left {t : Token} (h : t.isParen "(" = true) : t.weight = 1 := by
  rw [weight, if_pos h]

theorem weight_of_right {t : Token} (h : t.isParen ")" = true) : t.weight = -1 := by
  have hne : ¬ t.isParen "(" = true := by
    intro hleft
    have hlexeme := (isParen_iff.mp hleft).2
    rw [(isParen_iff.mp h).2] at hlexeme
    exact absurd hlexeme (by decide)
  rw [weight, if_neg hne, if_pos h]

theorem weight_of_kind_ne {t : Token} (h : t.kind ≠ .paren) : t.weight = 0 := by
  rw [weight, isParen, isParen, beq_eq_false_iff_ne.mpr h]
  rfl

theorem weight_of_kind {t : Token} {k : Kind} (h : t.kind = k) (hk : k ≠ .paren) : t.weight = 0 :=
  weight_of_kind_ne (ne_of_eq_of_ne h hk)

/-- How many more parentheses a run opens than it closes. -/
def excess : List Token → Int
  | [] => 0
  | t :: run => t.weight + excess run

@[simp] theorem excess_nil : excess [] = 0 := rfl

@[simp] theorem excess_cons (t : Token) (run : List Token) :
    excess (t :: run) = t.weight + excess run := rfl

@[simp] theorem excess_append (run run' : List Token) :
    excess (run ++ run') = excess run + excess run' := by
  induction run with
  | nil => rw [List.nil_append, excess_nil, Int.zero_add]
  | cons t run ih => rw [List.cons_append, excess_cons, excess_cons, ih, Int.add_assoc]

/-- Where `depth` parentheses are open, the run closes none that is not open. -/
def Covers (depth : Int) (run : List Token) : Prop :=
  ∀ before, before <+: run → 0 ≤ depth + excess before

/-- The run closes as many parentheses as it opens, and no prefix of it closes more. -/
structure Balanced (run : List Token) : Prop where
  covers : Covers 0 run
  excess_eq : excess run = 0

@[simp] theorem covers_nil {depth : Int} : Covers depth [] ↔ 0 ≤ depth := by
  constructor
  · intro h
    have := h [] (List.prefix_refl _)
    rwa [excess_nil, Int.add_zero] at this
  · intro h before hb
    rw [List.prefix_nil.mp hb, excess_nil, Int.add_zero]
    exact h

theorem covers_cons {depth : Int} {t : Token} {run : List Token} :
    Covers depth (t :: run) ↔ 0 ≤ depth ∧ Covers (depth + t.weight) run := by
  constructor
  · intro h
    refine ⟨?_, fun before hb => ?_⟩
    · have := h [] List.nil_prefix
      rwa [excess_nil, Int.add_zero] at this
    · have := h (t :: before) (List.cons_prefix_cons.mpr ⟨rfl, hb⟩)
      rwa [excess_cons, ← Int.add_assoc] at this
  · rintro ⟨h₀, h⟩ before hb
    cases before with
    | nil =>
      rw [excess_nil, Int.add_zero]
      exact h₀
    | cons t' before =>
      obtain ⟨rfl, hrun⟩ := List.cons_prefix_cons.mp hb
      rw [excess_cons, ← Int.add_assoc]
      exact h before hrun

theorem Covers.nonneg {depth : Int} {run : List Token} (h : Covers depth run) : 0 ≤ depth := by
  have := h [] List.nil_prefix
  rwa [excess_nil, Int.add_zero] at this

theorem Covers.excess_nonneg {depth : Int} {run : List Token} (h : Covers depth run) :
    0 ≤ depth + excess run :=
  h run (List.prefix_refl _)

theorem Covers.mono {depth depth' : Int} {run : List Token} (h : Covers depth run)
    (hle : depth ≤ depth') : Covers depth' run := by
  intro before hb
  have := h before hb
  omega

theorem Covers.append {depth : Int} {run run' : List Token} (h : Covers depth run)
    (h' : Covers (depth + excess run) run') : Covers depth (run ++ run') := by
  induction run generalizing depth with
  | nil => rwa [excess_nil, Int.add_zero] at h'
  | cons t run ih =>
    obtain ⟨h₀, hrun⟩ := covers_cons.mp h
    rw [excess_cons, ← Int.add_assoc] at h'
    exact covers_cons.mpr ⟨h₀, ih hrun h'⟩

theorem balanced_nil : Balanced [] := ⟨covers_nil.mpr (Int.le_refl 0), rfl⟩

theorem balanced_singleton {t : Token} (h : t.kind ≠ .paren) : Balanced [t] := by
  have hflat := weight_of_kind_ne h
  refine ⟨covers_cons.mpr ⟨Int.le_refl 0, covers_nil.mpr ?_⟩, ?_⟩
  · rw [hflat]
    decide
  · rw [excess_cons, hflat]
    rfl

theorem Balanced.append {run run' : List Token} (h : Balanced run) (h' : Balanced run') :
    Balanced (run ++ run') := by
  refine ⟨h.covers.append ?_, ?_⟩
  · rw [h.excess_eq]
    exact h'.covers
  · rw [excess_append, h.excess_eq, h'.excess_eq]
    rfl

theorem balanced_of_forall_kind_ne {run : List Token} (h : ∀ t ∈ run, t.kind ≠ .paren) :
    Balanced run := by
  induction run with
  | nil => exact balanced_nil
  | cons t run ih =>
    rw [List.forall_mem_cons] at h
    exact (balanced_singleton h.1).append (ih h.2)

/-- A balanced run between parentheses is balanced. -/
theorem Balanced.group {run : List Token} (h : Balanced run) {left right : Token}
    (hleft : left.isParen "(" = true) (hright : right.isParen ")" = true) :
    Balanced (left :: (run ++ [right])) := by
  have hopen := weight_of_left hleft
  have hclose := weight_of_right hright
  refine ⟨covers_cons.mpr ⟨Int.le_refl 0, Covers.append (h.covers.mono ?_) ?_⟩, ?_⟩
  · rw [hopen]
    decide
  · rw [hopen, h.excess_eq, covers_cons, hclose, covers_nil]
    decide
  · rw [excess_cons, excess_append, excess_cons, hopen, hclose, h.excess_eq]
    rfl

/-- Whether a token may stand in a run of the given kinds. The parentheses always may. -/
def IsOf (kinds : List Kind) (t : Token) : Prop :=
  t.isParen "(" = true ∨ t.isParen ")" = true ∨ t.kind ∈ kinds

end Token

namespace Grammar

/-! ### Phrases -/

/-- The kinds of tokens in conditions. -/
def conditionKinds : List Token.Kind := [.number, .identifier, .relation, .logic]

/-- The kinds of tokens on the right of assignments. -/
def valueKinds : List Token.Kind := [.number, .identifier, .arithmetic, .string]

/-- The kinds of tokens in the further arguments of `write`. -/
def argumentKinds : List Token.Kind := [.number, .identifier, .arithmetic, .comma]

/-- A balanced run of tokens of the given kinds. -/
structure Run (kinds : List Token.Kind) where
  tokens : List Token
  allowed : ∀ t ∈ tokens, t.IsOf kinds
  balanced : Token.Balanced tokens

theorem Run.kind_ne {kinds : List Token.Kind} (run : Run kinds) {t : Token} (h : t ∈ run.tokens)
    {k : Token.Kind} (hk : k ∉ kinds) (hparen : k ≠ .paren) : t.kind ≠ k := by
  rintro rfl
  rcases run.allowed t h with hleft | hright | hmem
  · exact hparen (Token.isParen_iff.mp hleft).1
  · exact hparen (Token.isParen_iff.mp hright).1
  · exact hk hmem

/-- A token that is what is wanted. -/
abbrev Terminal (w : Wanted) := { t : Token // w.accepts t = true }

namespace Terminal

theorem kind_eq {k : Token.Kind} (t : Terminal (.kind k)) : t.1.kind = k := beq_iff_eq.mp t.2

theorem kind_lexeme {k : Token.Kind} {text : String} (t : Terminal (.lexeme k text)) :
    t.1.kind = k ∧ t.1.lexeme = text := by
  have h := t.2
  rwa [Wanted.accepts, Bool.and_eq_true, beq_iff_eq, beq_iff_eq] at h

theorem isWord {k : Token.Kind} {text : String} (t : Terminal (.lexeme k text))
    (h : k = .keyword ∨ k = .identifier) : t.1.isWord text = true := by
  rw [Token.isWord_iff, t.kind_lexeme.1]
  exact ⟨h, t.kind_lexeme.2⟩

end Terminal

/-- One of the words that are keywords. -/
abbrev Word (text : String) := Terminal (.lexeme .keyword text)

/-- One of the words of a loop, which are identifiers. -/
abbrev LoopWord (text : String) := Terminal (.lexeme .identifier text)

/-- An opening parenthesis. -/
abbrev Left := Terminal (.lexeme .paren "(")

/-- A closing parenthesis. -/
abbrev Right := Terminal (.lexeme .paren ")")

/-- The end of a statement. -/
abbrev Stop := Terminal (.kind .terminator)

/-- A name that can be assigned: an identifier that is no word of a loop. -/
abbrev Name := { t : Token // t.kind = .identifier ∧ t.isLoopWord = false }

/-- A statement without a body, or the head or the end of a block. -/
inductive Phrase where
  | empty (stop : Stop)
  | assignment (target : Name) (sign : Terminal (.kind .assign)) (value : Run valueKinds)
    (stop : Stop)
  | write (word : Word "write") (left : Left) (text : Terminal (.kind .string))
    (further : Option (Terminal (.kind .comma) × Run argumentKinds)) (right : Right) (stop : Stop)
  | capture (word : Word "capture") (left : Left) (name : Terminal (.kind .identifier))
    (right : Right) (stop : Stop)
  | conditional (word : Word "if") (left : Left) (condition : Run conditionKinds) (right : Right)
    (next : Word "then")
  | conditionalEnd (word : Word "end-if")
  | loop (word : LoopWord "while") (left : Left) (condition : Run conditionKinds) (right : Right)
  | loopEnd (word : LoopWord "end-while")

namespace Phrase

/-- The tokens of the further arguments of `write`. -/
def furtherTokens : Option (Terminal (.kind .comma) × Run argumentKinds) → List Token
  | none => []
  | some (comma, args) => comma.1 :: args.tokens

/-- The first token of a phrase. -/
def head : Phrase → Token
  | empty stop => stop.1
  | assignment target _ _ _ => target.1
  | write word _ _ _ _ _ => word.1
  | capture word _ _ _ _ => word.1
  | conditional word _ _ _ _ => word.1
  | conditionalEnd word => word.1
  | loop word _ _ _ => word.1
  | loopEnd word => word.1

/-- The tokens of a phrase behind the first. -/
def tail : Phrase → List Token
  | empty _ => []
  | assignment _ sign value stop => sign.1 :: (value.tokens ++ [stop.1])
  | write _ left text further right stop =>
    left.1 :: text.1 :: (furtherTokens further ++ [right.1, stop.1])
  | capture _ left name right stop => [left.1, name.1, right.1, stop.1]
  | conditional _ left condition right next => left.1 :: (condition.tokens ++ [right.1, next.1])
  | conditionalEnd _ => []
  | loop _ left condition right => left.1 :: (condition.tokens ++ [right.1])
  | loopEnd _ => []

/-- The tokens of a phrase. -/
def tokens (p : Phrase) : List Token := p.head :: p.tail

/-- What a phrase is to the blocks around it. -/
inductive Role where
  | plain
  | opens (block : Block)
  | closes (block : Block)
deriving DecidableEq

/-- The role of a phrase. -/
def role : Phrase → Role
  | conditional .. => .opens .conditional
  | conditionalEnd _ => .closes .conditional
  | loop .. => .opens .loop
  | loopEnd _ => .closes .loop
  | _ => .plain

end Phrase

/-! ### Nesting -/

/-- Every head of a block has an end of the same kind, and the phrases between the two are
nested. -/
inductive Nested : List Phrase → Prop where
  | nil : Nested []
  | plain {p : Phrase} {rest : List Phrase} (role : p.role = .plain) :
    Nested rest → Nested (p :: rest)
  | block {block : Block} {first last : Phrase} {body rest : List Phrase}
    (opens : first.role = .opens block) (closes : last.role = .closes block) :
    Nested body → Nested rest → Nested (first :: (body ++ last :: rest))

/-- The tokens are those of a well-formed program. -/
def Derives (tokens : List Token) : Prop :=
  ∃ phrases, Nested phrases ∧ phrases.flatMap Phrase.tokens = tokens

theorem Nested.append {front rest : List Phrase} (h : Nested front) (hrest : Nested rest) :
    Nested (front ++ rest) := by
  induction h with
  | nil => exact hrest
  | plain role _ ih => exact .plain role ih
  | block opens closes hbody _ _ ih =>
    rw [List.cons_append, List.append_assoc, List.cons_append]
    exact .block opens closes hbody ih

/-- The blocks that are open behind a phrase, innermost first, if the phrase fits where `blocks`
are open. -/
def Phrase.follow (blocks : List Block) (p : Phrase) : Option (List Block) :=
  match p.role with
  | .plain => some blocks
  | .opens block => some (block :: blocks)
  | .closes block => if blocks.head? = some block then some blocks.tail else none

theorem Phrase.follow_of_plain {p : Phrase} (h : p.role = .plain) (blocks : List Block) :
    p.follow blocks = some blocks := by
  rw [follow, h]

theorem Phrase.follow_of_opens {p : Phrase} {block : Block} (h : p.role = .opens block)
    (blocks : List Block) : p.follow blocks = some (block :: blocks) := by
  rw [follow, h]

theorem Phrase.follow_of_closes {p : Phrase} {block : Block} (h : p.role = .closes block)
    {blocks behind : List Block} : p.follow blocks = some behind ↔ blocks = block :: behind := by
  rw [follow, h]
  cases blocks with
  | nil => simp
  | cons b blocks => simp

/-- Nested phrases leave the open blocks as they were. -/
theorem Nested.foldlM_follow {phrases : List Phrase} (h : Nested phrases) (blocks : List Block) :
    phrases.foldlM Phrase.follow blocks = some blocks := by
  induction h generalizing blocks with
  | nil => rfl
  | plain role _ ih =>
    rw [List.foldlM_cons, Phrase.follow_of_plain role, Option.bind_eq_bind, Option.bind_some, ih]
  | block opens closes _ _ ihbody ihrest =>
    rw [List.foldlM_cons, Phrase.follow_of_opens opens, Option.bind_eq_bind, Option.bind_some,
      List.foldlM_append, ihbody, Option.bind_eq_bind, Option.bind_some, List.foldlM_cons,
      (Phrase.follow_of_closes closes).mpr rfl, Option.bind_eq_bind, Option.bind_some, ihrest]

/-- The phrases close the given blocks, innermost first, and are nested before, between and behind
the ends that do. -/
inductive Unwinds : List Block → List Phrase → Prop where
  | nested {phrases : List Phrase} : Nested phrases → Unwinds [] phrases
  | closes {block : Block} {blocks : List Block} {last : Phrase} {front rest : List Phrase}
    (closes : last.role = .closes block) :
    Nested front → Unwinds blocks rest → Unwinds (block :: blocks) (front ++ last :: rest)

theorem Unwinds.append {front : List Phrase} (hfront : Nested front) {blocks : List Block}
    {rest : List Phrase} (h : Unwinds blocks rest) : Unwinds blocks (front ++ rest) := by
  cases h with
  | nested h => exact .nested (hfront.append h)
  | closes closes h hrest =>
    rw [← List.append_assoc]
    exact .closes closes (hfront.append h) hrest

/-- A stack of open blocks that ends empty was unwound. -/
theorem unwinds_of_foldlM {blocks : List Block} {phrases : List Phrase}
    (h : phrases.foldlM Phrase.follow blocks = some []) : Unwinds blocks phrases := by
  induction phrases generalizing blocks with
  | nil =>
    cases h
    exact .nested .nil
  | cons p phrases ih =>
    rw [List.foldlM_cons, Option.bind_eq_bind, Option.bind_eq_some_iff] at h
    obtain ⟨behind, hp, hrest⟩ := h
    cases hrole : p.role with
    | plain =>
      rw [Phrase.follow_of_plain hrole] at hp
      cases hp
      have hplain : Nested [p] := .plain hrole .nil
      exact (ih hrest).append hplain
    | opens block =>
      rw [Phrase.follow_of_opens hrole] at hp
      cases hp
      -- The head and the end that closes its block are nested together.
      cases ih hrest with
      | @closes _ _ last body _ closes hbody hunwinds =>
        have hblock : Nested (p :: (body ++ [last])) := .block hrole closes hbody .nil
        have hunwound := hunwinds.append hblock
        rwa [List.cons_append, List.append_assoc] at hunwound
    | closes block =>
      rw [(Phrase.follow_of_closes hrole).mp hp]
      have hclosed := Unwinds.closes hrole .nil (ih hrest)
      exact hclosed

/-- **Nesting by a stack.** Phrases are nested if and only if the blocks they open and close leave
an empty stack empty. -/
theorem nested_iff_foldlM {phrases : List Phrase} :
    Nested phrases ↔ phrases.foldlM Phrase.follow [] = some [] := by
  constructor
  · intro h
    exact h.foldlM_follow []
  · intro h
    cases unwinds_of_foldlM h with
    | nested h => exact h

end Grammar

end Stepwise
