import Stepwise.Proofs.Tokenization

/-!
# Kinds and shapes

What a lexeme may look like is said twice. The scan has a pattern for each shape and looks for the
end of a lexeme in a text; the kind of a token is found by tests on the lexeme alone, in an order of
their own. Nothing ties the one to the other but that they describe the same language, and readers
and checker rely on it: they look at the kind of a token and take its lexeme for granted.

So each kind is given its lexemes here, without a test. A lexeme of a known kind has a shape, which
is to say that the scan takes it as a whole where nothing follows it, and a lexeme that has a shape
has a known kind.

## Main definitions

* `Token.Kind.Describes` — the lexemes of a kind

## Main results

* `Token.Kind.describes_ofLexeme` — a lexeme is one of its kind
* `Token.scan_eq_singleton_iff` — a text is one token as a whole if it has a shape
* `Token.kind_describes_scan` — so the kinds of lexemes and the tokens of texts agree
-/

namespace Stepwise

namespace Token

open Text

/-! ### Tests on lexemes -/

section

variable {cs : List Char}

theorem exists_of_isQuoted (h : isQuoted cs = true) :
    ∃ inner, '"' ∉ inner ∧ cs = '"' :: (inner ++ ['"']) := by
  unfold isQuoted at h
  split at h
  · next rest =>
    rw [Bool.and_eq_true, beq_iff_eq, Bool.not_eq_true', Bool.eq_false_iff, Ne,
      List.contains_iff_mem] at h
    obtain ⟨hlast, hinner⟩ := h
    obtain ⟨inner, rfl⟩ := List.getLast?_eq_some_iff.mp hlast
    rw [List.dropLast_concat] at hinner
    exact ⟨inner, hinner, rfl⟩
  · cases h

theorem exists_plain_of_isNumeral (h : isNumeral cs = true) :
    ∃ whole fraction, Numeral.Plain whole fraction cs := by
  have hrun : ∀ {run : List Char}, (!run.isEmpty && run.all Char.isDigit) = true →
      IsDigits run := by
    intro run h
    rwa [Bool.and_eq_true, List.all_eq_true, Bool.not_eq_true', List.isEmpty_eq_false_iff] at h
  simp only [isNumeral] at h
  split at h
  · exact ⟨cs, [], .whole (hrun h)⟩
  · next point fraction hpoint =>
    rw [Bool.and_eq_true] at h
    have hhead := List.head?_dropWhile_not (· != '.') cs
    rw [hpoint] at hhead
    have hdot : point = '.' := by simpa using hhead
    have hsplit := List.takeWhile_append_dropWhile (p := (· != '.')) (l := cs)
    rw [hpoint, hdot] at hsplit
    rw [← hsplit]
    exact ⟨_, fraction, .fraction (hrun h.1) (hrun h.2)⟩

theorem isWord_of_isWordLexeme {s : String} (h : isWordLexeme s = true) :
    IsWord s.toList ∨ s.toList ∈ hyphenated := by
  rw [isWordLexeme, Bool.or_eq_true, Bool.or_eq_true, beq_iff_eq, beq_iff_eq] at h
  rcases h with (rfl | rfl) | h
  · exact .inr (by decide)
  · exact .inr (by decide)
  · left
    split at h
    · cases h
    · next c cs hs =>
      rw [Bool.and_eq_true, List.all_eq_true] at h
      exact ⟨c, cs, hs, h.1, h.2⟩

end

/-! ### The lexemes of a kind -/

/-- The lexemes of a kind. Nothing is said of those of which the kind is unknown. -/
def Kind.Describes (s : String) : Kind → Prop
  | .terminator => s = "::"
  | .string => ∃ inner, '"' ∉ inner ∧ s.toList = '"' :: (inner ++ ['"'])
  | .number => ∃ whole fraction, Numeral.Plain whole fraction s.toList
  | .comma => s = ","
  | .paren => s = "(" ∨ s = ")"
  | .logic => s ∈ logicWords
  | .assign => s = "="
  | .relation => s ∈ relations
  | .arithmetic => s ∈ arithmeticSigns
  | .keyword => s ∈ keywords
  | .identifier => IsWord s.toList ∨ s.toList ∈ hyphenated
  | .unknown => True

variable {s : String} {k : Kind}

/-- A test in front of others finds a kind rightly if the test says what the kind says. -/
theorem Kind.describes_ite {test : Prop} [Decidable test] {k₁ k₂ : Kind}
    (h₁ : test → k₁.Describes s) (h₂ : k₂.Describes s) :
    (if test then k₁ else k₂).Describes s := by
  split
  · next h => exact h₁ h
  · exact h₂

/-- **A lexeme is one of its kind.** -/
theorem Kind.describes_ofLexeme (s : String) : (Kind.ofLexeme s).Describes s := by
  refine describes_ite (fun h => h) ?_
  refine describes_ite exists_of_isQuoted ?_
  refine describes_ite exists_plain_of_isNumeral ?_
  refine describes_ite (fun h => h) ?_
  refine describes_ite (fun h => h) ?_
  refine describes_ite (fun h => h) ?_
  refine describes_ite (fun h => h) ?_
  refine describes_ite (fun h => h) ?_
  refine describes_ite (fun h => h) ?_
  refine describes_ite (fun h => h) ?_
  exact describes_ite isWord_of_isWordLexeme trivial

/-! ### Lexemes of a kind have a shape -/

/-- The words that have a kind of their own are words. -/
theorem isWord_of_mem_fixed (h : s ∈ keywords ++ logicWords) :
    IsWord s.toList ∨ s.toList ∈ hyphenated := by
  have hall : ((keywords ++ logicWords).all isWordLexeme) = true := by decide
  exact isWord_of_isWordLexeme (List.all_eq_true.mp hall s h)

theorem Kind.Describes.exists_matches (h : k.Describes s) (hk : k ≠ .unknown) :
    ∃ shape : Shape, shape.Matches s.toList [] := by
  have hword : IsWord s.toList ∨ s.toList ∈ hyphenated →
      ∃ shape : Shape, shape.Matches s.toList [] := fun h =>
    ⟨.word, h.imp_right fun hmem => ⟨hmem, stopsBefore_nil _⟩⟩
  cases k with
  | terminator => exact ⟨.terminator, congrArg String.toList h⟩
  | string => exact ⟨.quoted, h⟩
  | number => exact ⟨.number, h⟩
  | comma => exact ⟨.bracket, ',', by decide, congrArg String.toList h⟩
  | paren =>
    rcases h with rfl | rfl
    · exact ⟨.bracket, '(', by decide, rfl⟩
    · exact ⟨.bracket, ')', by decide, rfl⟩
  | logic => exact hword (isWord_of_mem_fixed (List.mem_append_right _ h))
  | assign => exact ⟨.relation, '=', by decide, congrArg String.toList h⟩
  | relation =>
    simp only [Describes, relations, List.mem_cons, List.not_mem_nil, or_false] at h
    rcases h with rfl | rfl | rfl | rfl | rfl
    · exact ⟨.relation, '<', by decide, rfl⟩
    · exact ⟨.relation, '>', by decide, rfl⟩
    · exact ⟨.wideRelation, .head _⟩
    · exact ⟨.wideRelation, .tail _ (.tail _ (.head _))⟩
    · exact ⟨.wideRelation, .tail _ (.head _)⟩
  | arithmetic =>
    simp only [Describes, arithmeticSigns, List.mem_cons, List.not_mem_nil, or_false] at h
    rcases h with rfl | rfl | rfl | rfl
    · exact ⟨.sign, '+', by decide, rfl⟩
    · exact ⟨.sign, '-', by decide, rfl⟩
    · exact ⟨.sign, '*', by decide, rfl⟩
    · exact ⟨.sign, '/', by decide, rfl⟩
  | keyword => exact hword (isWord_of_mem_fixed (List.mem_append_left _ h))
  | identifier => exact hword h
  | unknown => exact absurd rfl hk

/-! ### Lexemes with a shape have a kind -/

theorem kind_ne_unknown_of_mem {lexemes : List (List Char)} (h : s.toList ∈ lexemes)
    (hall : (lexemes.all fun cs => Kind.ofLexeme (String.ofList cs) != .unknown) = true) :
    Kind.ofLexeme s ≠ .unknown := by
  have hs := List.all_eq_true.mp hall s.toList h
  rw [String.ofList_toList] at hs
  exact bne_iff_ne.mp hs

theorem Shape.Matches.kind_ne_unknown {shape : Shape} {rest : List Char}
    (h : shape.Matches s.toList rest) : Kind.ofLexeme s ≠ .unknown := by
  cases shape with
  | terminator => exact kind_ne_unknown_of_mem (List.mem_singleton.mpr h) (by decide)
  | quoted =>
    obtain ⟨inner, hinner, hs⟩ := h
    rw [kind_of_quoted hs hinner]
    decide
  | number =>
    obtain ⟨whole, fraction, h⟩ := h
    rw [kind_of_plain h]
    decide
  | wideRelation => exact kind_ne_unknown_of_mem h (by decide)
  | relation | sign | bracket =>
    obtain ⟨c, hc, hs⟩ := h
    have hmem : s.toList ∈ List.map (fun c => [c]) _ := List.mem_map.mpr ⟨c, hc, hs.symm⟩
    exact kind_ne_unknown_of_mem hmem (by decide)
  | word =>
    rcases h with h | ⟨h, -⟩
    · by_cases hfixed : s ∈ keywords ++ logicWords
      · have hall : ((keywords ++ logicWords).all fun s => Kind.ofLexeme s != .unknown) = true := by
          decide
        exact bne_iff_ne.mp (List.all_eq_true.mp hall s hfixed)
      · rw [List.mem_append, not_or] at hfixed
        rw [kind_of_word h hfixed]
        decide
    · exact kind_ne_unknown_of_mem h (by decide)

/-- **The kind of a lexeme is known** if and only if it has a shape. -/
theorem Kind.ofLexeme_ne_unknown_iff :
    Kind.ofLexeme s ≠ .unknown ↔ ∃ shape : Shape, shape.Matches s.toList [] := by
  constructor
  · exact (describes_ofLexeme s).exists_matches
  · rintro ⟨shape, h⟩
    exact h.kind_ne_unknown

/-! ### Texts of one token -/

/-- **A text is one token as a whole** if and only if it has a shape. -/
theorem scan_eq_singleton_iff :
    (∃ t, scan s = [t] ∧ t.span = ⟨0, s.utf8ByteSize⟩) ↔
      ∃ shape : Shape, shape.Matches s.toList [] := by
  constructor
  · rintro ⟨t, hscan, hspan⟩
    have htokens : Tokenizes (scan s) 0 s.toList := tokenizes_scanFrom 0 s.toList
    have ht : t ∈ scan s := hscan ▸ List.mem_singleton_self t
    obtain ⟨before, after, hsplit, hstands⟩ := htokens.standsAt t ht
    have hstart := hstands.start
    have hstop := hstands.stop
    have hlength := congrArg byteLength hsplit
    rw [hspan] at hstart hstop
    rw [byteLength_append, byteLength_append, byteLength_toList] at hlength
    simp only at hstart hstop
    -- No bytes are left for what stands before the token and behind it.
    have hbefore : before = [] := Decidable.byContradiction fun hne => by
      have := byteLength_pos hne
      omega
    have hafter : after = [] := Decidable.byContradiction fun hne => by
      have := byteLength_pos hne
      omega
    subst hbefore hafter
    rw [List.nil_append, List.append_nil] at hsplit
    rw [hsplit]
    exact hstands.isMunch.exists_matches
  · rintro ⟨shape, h⟩
    have hscan := (h.stands apart_nil).scanFrom_append 0
    rw [List.append_nil, scanFrom_nil] at hscan
    exact ⟨_, hscan, by rw [span_ofLexeme, Nat.zero_add, byteLength_toList]⟩

/-- The tokens of a text have known kinds. -/
theorem kind_ne_unknown_of_mem_scan {text : String} {t : Token} (h : t ∈ scan text) :
    t.kind ≠ .unknown := by
  obtain ⟨rest, shape, hmatches⟩ := exists_matches_of_mem_scan h
  rw [isClassified_of_mem_scan h]
  exact hmatches.kind_ne_unknown

/-- **Kinds and tokens describe the same language.** The kind of a lexeme is known if and only if
the lexeme, taken as a text, is a single token that covers all of it. So all tokens of a text have
known kinds, and the lexeme of a token is one of its kind: a parenthesis, an arithmetic sign, digits
with or without a fraction, or a text between its only two quotes. -/
theorem kind_describes_scan :
    (∀ lexeme : String, Kind.ofLexeme lexeme ≠ .unknown ↔
      ∃ t, scan lexeme = [t] ∧ t.span = ⟨0, lexeme.utf8ByteSize⟩) ∧
    ∀ text : String, ∀ t ∈ scan text,
      t.kind ≠ .unknown ∧
      (t.kind = .paren → t.lexeme = "(" ∨ t.lexeme = ")") ∧
      (t.kind = .arithmetic → t.lexeme ∈ ["+", "-", "*", "/"]) ∧
      (t.kind = .number → ∃ whole fraction, Numeral.Plain whole fraction t.lexeme.toList) ∧
      (t.kind = .string → ∃ inner, '"' ∉ inner ∧
        t.lexeme.toList = '"' :: (inner ++ ['"'])) := by
  constructor
  · intro lexeme
    exact Kind.ofLexeme_ne_unknown_iff.trans scan_eq_singleton_iff.symm
  · intro text t ht
    have hdescribes : t.kind.Describes t.lexeme :=
      isClassified_of_mem_scan ht ▸ Kind.describes_ofLexeme t.lexeme
    refine ⟨kind_ne_unknown_of_mem_scan ht, ?_, ?_, ?_, ?_⟩ <;>
    · intro hkind
      rw [hkind] at hdescribes
      exact hdescribes

end Token

end Stepwise
