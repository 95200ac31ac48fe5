import Stepwise.Proofs.Places
import Stepwise.Proofs.Tokenization

/-!
# Texts written anew

Of a text only the lexemes of its tokens count. Written one behind the other, with a blank between
each two, they make a text that has the same tokens up to their places. Stray characters, a quote
that nothing closes and the ends of lines are gone, and what they kept apart is kept apart by a
blank: where `end`, `-` and `if` were three tokens they remain three.

A lexeme that was found in front of anything stands by itself in front of a blank. So the induction
is on the lexemes as they are written, and what stood behind them in the first text does not matter
any more.

## Main definitions

* `Token.StandsApart` — a lexeme that stands by itself wherever it is kept apart
* `Token.respaced` — the text that is written from the tokens of a text

## Main results

* `Token.map_lexeme_scan_intercalate` — lexemes that stand by themselves are read as written
* `Token.respaced_respaced` — a text that is written anew stays as it is
* `Token.respaced_means_same` — it has the tokens, the program and the faults of the first text
-/

namespace Stepwise

namespace Token

/-- A lexeme that stands by itself before every text that keeps it apart. -/
def StandsApart (lexeme : String) : Prop :=
  ∀ rest, Apart rest → Stands lexeme.toList rest

/-- The lexemes of a text stand by themselves. -/
theorem standsApart_of_mem_scan {text : String} {t : Token} (h : t ∈ scan text) :
    StandsApart t.lexeme := by
  intro rest hrest
  obtain ⟨behind, shape, hmatches⟩ := exists_matches_of_mem_scan h
  exact hmatches.stands hrest

/-! ### Lexemes in a row -/

section

variable {lexemes : List String}

/-- Blanks keep lexemes apart that stand by themselves. -/
theorem laid_intercalate (h : ∀ lexeme ∈ lexemes, StandsApart lexeme) :
    Laid lexemes (" ".intercalate lexemes).toList := by
  induction lexemes with
  | nil => exact .nil
  | cons first others ih =>
    obtain ⟨hfirst, hothers⟩ := List.forall_mem_cons.mp h
    cases others with
    | nil =>
      have hlaid := Laid.nil.lexeme (hfirst [] apart_nil)
      rwa [List.append_nil] at hlaid
    | cons second others =>
      have hblank : Laid (second :: others) (' ' :: (" ".intercalate (second :: others)).toList) :=
        (ih hothers).blank rfl
      have htext : (" ".intercalate (first :: second :: others)).toList =
          first.toList ++ ' ' :: (" ".intercalate (second :: others)).toList := by
        rw [String.intercalate_cons_cons, String.toList_append, String.toList_append,
          List.append_assoc]
        rfl
      rw [htext]
      exact hblank.lexeme (hfirst _ (apart_of_isBlank rfl _))

/-- **Lexemes that stand by themselves are read as they were written**, with a blank between each
two. -/
theorem map_lexeme_scan_intercalate (h : ∀ lexeme ∈ lexemes, StandsApart lexeme) :
    (scan (" ".intercalate lexemes)).map lexeme = lexemes :=
  (laid_intercalate h).map_lexeme 0

end

/-! ### The text of the tokens of a text -/

/-- The lexemes of a text with a blank between each two. -/
def respaced (text : String) : String := " ".intercalate ((scan text).map lexeme)

theorem map_lexeme_scan_respaced (text : String) :
    (scan (respaced text)).map lexeme = (scan text).map lexeme := by
  refine map_lexeme_scan_intercalate ?_
  intro lexeme hlexeme
  obtain ⟨t, ht, rfl⟩ := List.mem_map.mp hlexeme
  exact standsApart_of_mem_scan ht

/-- A text that is written anew stays as it is. -/
theorem respaced_respaced (text : String) : respaced (respaced text) = respaced text :=
  congrArg " ".intercalate (map_lexeme_scan_respaced text)

/-- The kinds of the tokens of a text follow from their lexemes. -/
theorem map_kind_lexeme_scan (text : String) :
    (scan text).map (fun t => (t.kind, t.lexeme)) =
      ((scan text).map lexeme).map fun lexeme => (Kind.ofLexeme lexeme, lexeme) := by
  rw [List.map_map]
  refine List.map_congr_left fun t ht => ?_
  have hkind : t.kind = .ofLexeme t.lexeme := isClassified_of_mem_scan ht
  rw [hkind]
  rfl

/-- **Writing a text anew changes nothing of what it means.** The lexemes of a text with a blank
between each two make a text that has tokens of the same kinds with the same lexemes. So it has the
same program, and what is said of its faults is the same, in the same order. -/
theorem respaced_means_same (text : String) :
    (scan (respaced text)).map (fun t => (t.kind, t.lexeme)) =
        (scan text).map (fun t => (t.kind, t.lexeme)) ∧
      Program.ofTokens (scan (respaced text)) = Program.ofTokens (scan text) ∧
      (validate (scan (respaced text))).map Diagnostic.said =
        (validate (scan text)).map Diagnostic.said := by
  have htokens : (scan (respaced text)).map (fun t => (t.kind, t.lexeme)) =
      (scan text).map fun t => (t.kind, t.lexeme) := by
    rw [map_kind_lexeme_scan, map_kind_lexeme_scan, map_lexeme_scan_respaced]
  have hunplaced := map_unplaced_congr htokens
  refine ⟨htokens, ?_, ?_⟩
  · rw [← Program.ofTokens_map_unplaced, hunplaced, Program.ofTokens_map_unplaced]
  · rw [← said_validate_map_unplaced, hunplaced, said_validate_map_unplaced]

end Token

end Stepwise
