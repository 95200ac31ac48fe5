import Stepwise.Proofs.Located
import Stepwise.Proofs.Tokenization

/-!
# Diagnostics in the order of the text

The marks of the diagnostics of a program are among two errors at each of its tokens and three at
the end of the text, in that order. Where the tokens begin one behind the other, as those of a text
do, this is the order of their offsets, and it is kept by sublists. So are the bounds: a sublist
does not gain elements.

## Main definitions

* `Token.Increasing` — tokens that begin one behind the other
* `Check.InOrder` — diagnostics in the order of the tokens

## Main results

* `Token.increasing_scan` — the tokens of a text begin one behind the other
* `inOrder_validateIn` — the diagnostics of a program are in the order of its tokens
-/

namespace Stepwise

open scoped List

/-- The tokens begin one behind the other. -/
def Token.Increasing (tokens : List Token) : Prop :=
  tokens.Pairwise fun t u => t.offset < u.offset

instance (tokens : List Token) : Decidable (Token.Increasing tokens) :=
  inferInstanceAs (Decidable (tokens.Pairwise fun t u => t.offset < u.offset))

theorem Token.increasing_scan (text : String) : Increasing (scan text) := by
  have h := tokenizes_scanFrom 0 text.toList
  refine h.ordered.imp_of_mem fun {t u} ht _ hle => ?_
  obtain ⟨before, after, -, hstands⟩ := h.standsAt t ht
  exact Nat.lt_of_lt_of_le hstands.start_lt_stop hle

namespace Check

variable {tokens : List Token}

/-- Errors in the order of the tokens. -/
structure InOrder (tokens : List Token) (ds : List Diagnostic) : Prop where
  /-- All of them are errors. -/
  severity : ∀ d ∈ ds, d.severity = .error
  /-- Each offset is that of a token. -/
  located : Located tokens ds
  /-- Those at the end of the text come last, and they are three at most. -/
  ends : ∃ front back, ds = front ++ back ∧ (∀ d ∈ front, d.offset ≠ none) ∧
    (∀ d ∈ back, d.offset = none) ∧ back.length ≤ 3
  /-- The offsets never decrease. -/
  ordered : (ds.filterMap Diagnostic.offset).Pairwise (· ≤ ·)
  /-- No offset is that of more than two. -/
  repeated : ∀ offset, (ds.filterMap Diagnostic.offset).count offset ≤ 2

/-- The offset of each token, twice. -/
def offsetsTwice (tokens : List Token) : List Nat :=
  tokens.flatMap fun t => [t.offset, t.offset]

theorem mem_offsetsTwice {offset : Nat} :
    offset ∈ offsetsTwice tokens ↔ ∃ t ∈ tokens, offset = t.offset := by
  rw [offsetsTwice, List.mem_flatMap]
  refine exists_congr fun t => and_congr_right fun _ => ?_
  rw [List.mem_pair, or_self]

/-- The end of the text has no offset. -/
theorem filterMap_twice_append (tokens : List Token) (n : Nat) :
    (twice tokens ++ List.replicate n errorAtEnd).filterMap Prod.snd = offsetsTwice tokens := by
  rw [List.filterMap_append, List.filterMap_replicate_of_none rfl, List.append_nil, twice,
    List.filterMap_flatMap]
  rfl

theorem pairwise_offsetsTwice (h : Token.Increasing tokens) :
    (offsetsTwice tokens).Pairwise (· ≤ ·) := by
  refine List.pairwise_flatMap.mpr ⟨fun t _ => ?_, ?_⟩
  · exact List.pairwise_pair.mpr (Nat.le_refl _)
  · refine h.imp fun {t u} hlt a ha b hb => ?_
    rw [List.mem_pair, or_self] at ha hb
    rw [ha, hb]
    exact Nat.le_of_lt hlt

theorem count_offsetsTwice_le (h : Token.Increasing tokens) (offset : Nat) :
    (offsetsTwice tokens).count offset ≤ 2 := by
  induction tokens with
  | nil => exact Nat.zero_le 2
  | cons t ts ih =>
    obtain ⟨hbehind, hts⟩ := List.pairwise_cons.mp h
    show (t.offset :: t.offset :: offsetsTwice ts).count offset ≤ 2
    by_cases heq : t.offset = offset
    · have hnone : (offsetsTwice ts).count offset = 0 := by
        refine List.count_eq_zero.mpr fun hmem => ?_
        obtain ⟨u, hu, hoffset⟩ := mem_offsetsTwice.mp hmem
        have hlt := hbehind u hu
        omega
      rw [heq, List.count_cons_self, List.count_cons_self, hnone]
    · rw [List.count_cons_of_ne heq, List.count_cons_of_ne heq]
      exact ih hts

/-- Marks of which there are two at most at each token, in the order of the tokens, and then three
at most at the end of the text. -/
theorem inOrder_of_sublist (h : Token.Increasing tokens) {ds : List Diagnostic}
    (hmarks : ds.map mark <+ twice tokens ++ List.replicate 3 errorAtEnd) : InOrder tokens ds := by
  obtain ⟨front, back, hds, hfront, hback⟩ := List.sublist_append_iff.mp hmarks
  obtain ⟨front, back, rfl, rfl, rfl⟩ := List.map_eq_append_iff.mp hds
  have hoffsets : (front ++ back).filterMap Diagnostic.offset <+ offsetsTwice tokens := by
    have hsub := hmarks.filterMap Prod.snd
    rw [List.filterMap_map, filterMap_twice_append] at hsub
    exact hsub
  have hat : ∀ d ∈ front, ∃ t ∈ tokens, mark d = errorAt t := by
    intro d hd
    exact exists_of_mem_twice (hfront.subset (List.mem_map_of_mem hd))
  have hend : ∀ d ∈ back, mark d = errorAtEnd := by
    intro d hd
    exact List.eq_of_mem_replicate (hback.subset (List.mem_map_of_mem hd))
  refine
    { severity := fun d hd => ?_
      located := located_of_sublist hmarks
      ends := ⟨front, back, rfl, fun d hd => ?_, fun d hd => congrArg Prod.snd (hend d hd), ?_⟩
      ordered := (pairwise_offsetsTwice h).sublist hoffsets
      repeated := fun offset => (hoffsets.count_le offset).trans (count_offsetsTwice_le h offset) }
  · rcases List.mem_append.mp hd with hd | hd
    · obtain ⟨t, -, hmark⟩ := hat d hd
      exact congrArg Prod.fst hmark
    · exact congrArg Prod.fst (hend d hd)
  · obtain ⟨t, -, hmark⟩ := hat d hd
    rw [show d.offset = some t.offset from congrArg Prod.snd hmark]
    exact Option.some_ne_none _
  · have hlength := hback.length_le
    rwa [List.length_map, List.length_replicate] at hlength

end Check

/-- **The diagnostics of a program are in the order of its tokens**, where these begin one behind
the other, as those of a text do. All of them are errors. Those at tokens come first, and their
offsets never decrease. Not more than two are at one token, and not more than three at the end of
the text. -/
theorem inOrder_validateIn (κ σ : Type) [Depth κ] [Depth σ] :
    (∀ text, Token.Increasing (Token.scan text)) ∧
      ∀ tokens, Token.Increasing tokens → Check.InOrder tokens (validateIn κ σ tokens) := by
  refine ⟨Token.increasing_scan, fun tokens h => ?_⟩
  exact Check.inOrder_of_sublist h (Check.marks_validateIn_sublist κ σ tokens)

/-- Both bounds are reached: two errors at one token, and three at the end of the text. -/
theorem inOrder_validateIn_bounds_reached :
    Token.Increasing (Token.scan "while (x) write) :: y = (") ∧
      (validateIn UInt32 Int32 (Token.scan "while (x) write) :: y = (")).map Diagnostic.offset =
        [some 15, some 15, none, none, none] ∧
      Check.InOrder (Token.scan "while (x) write) :: y = (")
        (validateIn UInt32 Int32 (Token.scan "while (x) write) :: y = (")) := by
  have hincreasing : Token.Increasing (Token.scan "while (x) write) :: y = (") := by
    decide +kernel
  exact ⟨hincreasing, by decide +kernel, (inOrder_validateIn UInt32 Int32).2 _ hincreasing⟩

end Stepwise
