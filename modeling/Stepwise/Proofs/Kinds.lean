import Stepwise.Token.Scan

/-!
# What the kind of a token says

A token made by hand can have any kind beside any lexeme. A token of a text has the kind of its
lexeme, and then the kind says something about the lexeme: there are two parentheses and no more,
and each of the fixed words has one kind. `Token.IsClassified` is that condition, and what is
proved about programs of a text is mostly proved from it alone.
-/

namespace Stepwise

namespace Token

/-- The kind of the token is the kind of its lexeme. -/
def IsClassified (t : Token) : Prop := t.kind = .ofLexeme t.lexeme

theorem isClassified_ofLexeme (lexeme : String) (span : Span) :
    (ofLexeme lexeme span).IsClassified := rfl

theorem isClassified_of_mem_scanFrom {cs : List Char} {offset : Nat} {t : Token}
    (h : t ∈ scanFrom offset cs) : t.IsClassified := by
  induction offset, cs using scanFrom.induct with
  | case1 offset =>
    rw [scanFrom_nil] at h
    cases h
  | case2 offset c cs hmunch ih =>
    rw [scanFrom_cons_of_munch_eq_zero hmunch] at h
    exact ih h
  | case3 offset c cs n hmunch lexeme stop ih =>
    rw [scanFrom_cons_of_munch_eq_succ hmunch] at h
    rcases List.mem_cons.mp h with rfl | h
    · exact isClassified_ofLexeme ..
    · exact ih h

/-- The tokens of a text have the kinds of their lexemes. -/
theorem isClassified_of_mem_scan {text : String} {t : Token} (h : t ∈ scan text) :
    t.IsClassified :=
  isClassified_of_mem_scanFrom h

variable {t : Token}

theorem isParen_iff {text : String} :
    t.isParen text = true ↔ t.kind = .paren ∧ t.lexeme = text := by
  rw [isParen, Bool.and_eq_true, beq_iff_eq, beq_iff_eq]

theorem isWord_iff {text : String} :
    t.isWord text = true ↔ (t.kind = .keyword ∨ t.kind = .identifier) ∧ t.lexeme = text := by
  rw [isWord, Bool.and_eq_true, Bool.or_eq_true, beq_iff_eq, beq_iff_eq, beq_iff_eq]

/-- A token is one word only. -/
theorem not_isWord {text text' : String} (h : t.isWord text = true) (hne : text ≠ text') :
    ¬ t.isWord text' = true :=
  fun h' => hne ((isWord_iff.mp h).2.symm.trans (isWord_iff.mp h').2)

theorem isLoopWord_iff :
    t.isLoopWord = true ↔ t.isWord "while" = true ∨ t.isWord "end-while" = true := by
  rw [isLoopWord, Bool.or_eq_true]

theorem not_isWord_of_kind {k : Kind} {text : String} (h : t.kind = k)
    (hk : k ≠ .keyword ∧ k ≠ .identifier) : t.isWord text = false := by
  refine Bool.eq_false_iff.mpr fun hword => ?_
  rcases (isWord_iff.mp hword).1 with hkeyword | hname
  · exact hk.1 (h.symm.trans hkeyword)
  · exact hk.2 (h.symm.trans hname)

theorem not_isLoopWord_of_kind {k : Kind} (h : t.kind = k)
    (hk : k ≠ .keyword ∧ k ≠ .identifier) : t.isLoopWord = false := by
  rw [isLoopWord, not_isWord_of_kind h hk, not_isWord_of_kind h hk]
  rfl

theorem not_isLoopWord_of_isParen {text : String} (h : t.isParen text = true) :
    t.isLoopWord = false :=
  not_isLoopWord_of_kind (isParen_iff.mp h).1 (by decide)

theorem Kind.of_ite_eq {c : Prop} [Decidable c] {k₁ k₂ k : Kind} (hk : k₁ ≠ k)
    (h : (if c then k₁ else k₂) = k) : k₂ = k := by
  split at h
  · exact absurd h hk
  · exact h

/-- Only the two parentheses are parentheses. -/
theorem Kind.ofLexeme_eq_paren {lexeme : String} (h : Kind.ofLexeme lexeme = .paren) :
    lexeme = "(" ∨ lexeme = ")" := by
  have hparen := of_ite_eq (by decide) (of_ite_eq (by decide) (of_ite_eq (by decide)
    (of_ite_eq (by decide) h)))
  by_cases hlexeme : lexeme = "(" ∨ lexeme = ")"
  · exact hlexeme
  · rw [if_neg hlexeme] at hparen
    have hunknown := of_ite_eq (by decide) (of_ite_eq (by decide) (of_ite_eq (by decide)
      (of_ite_eq (by decide) (of_ite_eq (by decide) (of_ite_eq (by decide) hparen)))))
    cases hunknown

theorem IsClassified.isParen_or (h : t.IsClassified) (hk : t.kind = .paren) :
    t.isParen "(" = true ∨ t.isParen ")" = true := by
  rcases Kind.ofLexeme_eq_paren (h.symm.trans hk) with hl | hl
  · exact .inl (isParen_iff.mpr ⟨hk, hl⟩)
  · exact .inr (isParen_iff.mpr ⟨hk, hl⟩)

/-- A word has the kind of that word. -/
theorem IsClassified.kind_of_isWord {text : String} (h : t.IsClassified)
    (hw : t.isWord text = true) : t.kind = .ofLexeme text := by
  rw [h, (isWord_iff.mp hw).2]

end Token

end Stepwise
