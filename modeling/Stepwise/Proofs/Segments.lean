import Stepwise.Proofs.Acceptance

/-!
# Where the checker sees statements

A statement of a program is what the checker reads in one go. `Check.segments` cuts the tokens
there, whatever is wrong with them. Where nothing is wrong, the segments are the phrases of the
program, so the phrases of an accepted text are no invention of the grammar.

Notes are made without any of this, by looking at every token. They come out right because the two
words that are looked for stand nowhere but at the head of a phrase.

## Main definitions

* `Check.segments` — the tokens of a program, statement by statement

## Main results

* `Check.exists_phrases_of_accepts` — the segments of an accepted text are nested phrases
* `notExecutedNotes_flatMap` — one note for each conditional and each `capture`
-/

namespace Stepwise

open Grammar

namespace Check

/-- The tokens that the checker reads statement by statement, inside open blocks. -/
def segments (blocks : List Block) : List Token → List (List Token)
  | [] => []
  | t :: ts =>
    let checked := statement Int Int blocks t ts
    (t :: ts.take (ts.length - checked.1.rest.length)) :: segments checked.2 checked.1.rest
termination_by tokens => tokens.length
decreasing_by
  have := (statement_suffix Int Int blocks t ts).length_le
  simp only [List.length_cons]
  omega

theorem segments_nil (blocks : List Block) : segments blocks [] = [] := by rw [segments]

theorem segments_cons (blocks : List Block) (t : Token) (ts : List Token) :
    segments blocks (t :: ts) =
      (t :: ts.take (ts.length - (statement Int Int blocks t ts).1.rest.length)) ::
        segments (statement Int Int blocks t ts).2 (statement Int Int blocks t ts).1.rest := by
  rw [segments]

/-- Nothing is lost between statements. -/
theorem flatten_segments (blocks : List Block) (tokens : List Token) :
    (segments blocks tokens).flatten = tokens := by
  induction blocks, tokens using segments.induct with
  | case1 blocks => rw [segments_nil, List.flatten_nil]
  | case2 blocks t ts checked ih =>
    have hdrop := List.suffix_iff_eq_drop.mp (statement_suffix Int Int blocks t ts)
    rw [segments_cons, List.flatten_cons, ih, List.cons_append]
    refine congrArg (t :: ·) ?_
    calc ts.take (ts.length - checked.1.rest.length) ++ checked.1.rest
        = ts.take (ts.length - checked.1.rest.length) ++
            ts.drop (ts.length - checked.1.rest.length) := by rw [← hdrop]
      _ = ts := List.take_append_drop ..

/-- The segments of phrases that fit are the phrases. -/
theorem segments_flatMap {blocks behind : List Block} {phrases : List Phrase}
    (hc : ∀ t ∈ phrases.flatMap Phrase.tokens, t.IsClassified)
    (h : phrases.foldlM Phrase.follow blocks = some behind) :
    segments blocks (phrases.flatMap Phrase.tokens) = phrases.map Phrase.tokens := by
  induction phrases generalizing blocks with
  | nil => exact segments_nil blocks
  | cons p phrases ih =>
    rw [List.foldlM_cons, Option.bind_eq_bind, Option.bind_eq_some_iff] at h
    obtain ⟨blocks', hfollow, hfold⟩ := h
    rw [List.flatMap_cons] at hc ⊢
    have hstatement := statement_phrase hc hfollow
    have hlength : (p.tail ++ phrases.flatMap Phrase.tokens).length -
        (phrases.flatMap Phrase.tokens).length = p.tail.length := by
      rw [List.length_append]
      omega
    rw [Phrase.tokens, List.cons_append, segments_cons, hstatement]
    show (p.head :: (p.tail ++ phrases.flatMap Phrase.tokens).take
        ((p.tail ++ phrases.flatMap Phrase.tokens).length -
          (phrases.flatMap Phrase.tokens).length)) ::
        segments blocks' (phrases.flatMap Phrase.tokens) = _
    rw [hlength, List.take_left, ih (fun t ht => hc t (List.mem_append_right _ ht)) hfold,
      List.map_cons, Phrase.tokens]

/-- The statements of an accepted text are nested phrases. -/
theorem exists_phrases_of_accepts {text : String} (h : accepts (Token.scan text) = true) :
    ∃ phrases, Nested phrases ∧ phrases.flatMap Phrase.tokens = Token.scan text ∧
      segments [] (Token.scan text) = phrases.map Phrase.tokens ∧
      ∀ p ∈ phrases, ∀ t ∈ p.tokens, t.IsClassified := by
  have hc : ∀ t ∈ Token.scan text, t.IsClassified := fun t ht => Token.isClassified_of_mem_scan ht
  rw [accepts_iff, validate, validateIn, program_eq_nil_iff hc] at h
  obtain ⟨phrases, hfold, hflat⟩ := h
  rw [← hflat] at hc ⊢
  exact ⟨phrases, nested_iff_foldlM.mpr hfold, rfl, segments_flatMap hc hfold,
    fun p hp t ht => hc t (List.mem_flatMap.mpr ⟨p, hp, ht⟩)⟩

end Check

/-! ### Notes -/

/-- The note about a phrase that is checked but does nothing, at its first token. -/
def Grammar.Phrase.note? : Phrase → Option Diagnostic
  | .conditional word .. => some (.ofFault (.notExecuted "if") (some word.1.offset))
  | .capture word .. => some (.ofFault (.notExecuted "capture") (some word.1.offset))
  | _ => none

theorem notExecutedNotes_append (tokens tokens' : List Token) :
    notExecutedNotes (tokens ++ tokens') = notExecutedNotes tokens ++ notExecutedNotes tokens' := by
  rw [notExecutedNotes, List.filter_append, List.map_append]
  rfl

/-- A token about which there is no note. -/
def Token.IsSilent (t : Token) : Prop := t.kind = .keyword → t.lexeme ≠ "if" ∧ t.lexeme ≠ "capture"

theorem notExecutedNotes_eq_nil {tokens : List Token} (h : ∀ t ∈ tokens, t.IsSilent) :
    notExecutedNotes tokens = [] := by
  rw [notExecutedNotes, List.map_eq_nil_iff, List.filter_eq_nil_iff]
  intro t ht
  rw [decide_eq_true_iff]
  rintro ⟨hkeyword, hlexeme⟩
  exact hlexeme.elim (h t ht hkeyword).1 (h t ht hkeyword).2

theorem isSilent_of_run {kinds : List Token.Kind} (run : Run kinds)
    (hkeyword : Token.Kind.keyword ∉ kinds) : ∀ t ∈ run.tokens, t.IsSilent :=
  fun _ ht h => absurd h (run.kind_ne ht hkeyword (by decide))

theorem isSilent_of_kind {k : Token.Kind} (t : Terminal (.kind k)) (hk : k ≠ .keyword) :
    t.1.IsSilent :=
  fun h => absurd (t.kind_eq.symm.trans h) hk

theorem isSilent_of_lexeme {k : Token.Kind} {text : String} (t : Terminal (.lexeme k text))
    (h : k = .keyword → text ≠ "if" ∧ text ≠ "capture") : t.1.IsSilent := by
  intro hkeyword
  rw [t.kind_lexeme.1] at hkeyword
  rw [t.kind_lexeme.2]
  exact h hkeyword

/-- There is no note about what stands behind the first token of a phrase. -/
theorem isSilent_of_mem_tail (p : Phrase) : ∀ t ∈ p.tail, t.IsSilent := by
  have hnil : ∀ t ∈ ([] : List Token), t.IsSilent := fun t ht => by cases ht
  cases p with
  | empty | conditionalEnd | loopEnd => exact hnil
  | assignment target sign value stop =>
    simp only [Phrase.tail, List.forall_mem_cons, List.forall_mem_append]
    exact ⟨isSilent_of_kind sign (by decide), isSilent_of_run value (by decide),
      isSilent_of_kind stop (by decide), hnil⟩
  | write word left text further right stop =>
    simp only [Phrase.tail, List.forall_mem_cons, List.forall_mem_append]
    refine ⟨isSilent_of_lexeme left (by decide), isSilent_of_kind text (by decide), ?_,
      isSilent_of_lexeme right (by decide), isSilent_of_kind stop (by decide), hnil⟩
    cases further with
    | none => exact hnil
    | some args =>
      exact List.forall_mem_cons.mpr
        ⟨isSilent_of_kind args.1 (by decide), isSilent_of_run args.2 (by decide)⟩
  | capture word left name right stop =>
    simp only [Phrase.tail, List.forall_mem_cons]
    exact ⟨isSilent_of_lexeme left (by decide), isSilent_of_kind name (by decide),
      isSilent_of_lexeme right (by decide), isSilent_of_kind stop (by decide), hnil⟩
  | conditional word left condition right next =>
    simp only [Phrase.tail, List.forall_mem_cons, List.forall_mem_append]
    exact ⟨isSilent_of_lexeme left (by decide), isSilent_of_run condition (by decide),
      isSilent_of_lexeme right (by decide), isSilent_of_lexeme next (by decide), hnil⟩
  | loop word left condition right =>
    simp only [Phrase.tail, List.forall_mem_cons, List.forall_mem_append]
    exact ⟨isSilent_of_lexeme left (by decide), isSilent_of_run condition (by decide),
      isSilent_of_lexeme right (by decide), hnil⟩

theorem notExecutedNotes_singleton {text : String} (word : Word text)
    (h : text = "if" ∨ text = "capture") :
    notExecutedNotes [word.1] = [.ofFault (.notExecuted text) (some word.1.offset)] := by
  obtain ⟨hkind, hlexeme⟩ := word.kind_lexeme
  rw [notExecutedNotes, List.filter_cons_of_pos, List.filter_nil, List.map_singleton, hlexeme]
  rw [decide_eq_true_iff, hkind, hlexeme]
  exact ⟨rfl, h⟩

/-- Each conditional and each `capture` has one note, and no other phrase has any. -/
theorem notExecutedNotes_tokens (p : Phrase) : notExecutedNotes p.tokens = p.note?.toList := by
  have hhead : notExecutedNotes p.tokens = notExecutedNotes [p.head] := by
    rw [← List.append_nil (notExecutedNotes [p.head]),
      ← notExecutedNotes_eq_nil (isSilent_of_mem_tail p), ← notExecutedNotes_append]
    rfl
  have hsilent : ∀ {t : Token}, t.IsSilent → notExecutedNotes [t] = [] := fun ht =>
    notExecutedNotes_eq_nil (List.forall_mem_singleton.mpr ht)
  rw [hhead]
  cases p with
  | conditional word => exact notExecutedNotes_singleton word (.inl rfl)
  | capture word => exact notExecutedNotes_singleton word (.inr rfl)
  | empty stop => exact hsilent (isSilent_of_kind stop (by decide))
  | assignment target =>
    refine hsilent fun h => ?_
    rw [Phrase.head, target.2.1] at h
    cases h
  | write word => exact hsilent (isSilent_of_lexeme word (by decide))
  | conditionalEnd word => exact hsilent (isSilent_of_lexeme word (by decide))
  | loop word => exact hsilent (isSilent_of_lexeme word (by decide))
  | loopEnd word => exact hsilent (isSilent_of_lexeme word (by decide))

/-- The notes of a list of phrases. -/
theorem notExecutedNotes_flatMap (phrases : List Phrase) :
    notExecutedNotes (phrases.flatMap Phrase.tokens) = phrases.filterMap Phrase.note? := by
  induction phrases with
  | nil => rfl
  | cons p phrases ih =>
    rw [List.flatMap_cons, notExecutedNotes_append, notExecutedNotes_tokens, ih,
      List.filterMap_cons]
    cases p.note? with
    | none => rfl
    | some note => rfl

end Stepwise
