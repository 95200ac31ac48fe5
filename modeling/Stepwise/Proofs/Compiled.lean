import Mathlib
import Stepwise.Console
import Stepwise.Proofs.JsonForms
import Stepwise.Proofs.Located
import Stepwise.Proofs.Printing
import Stepwise.Proofs.Sizes
import Stepwise.Proofs.Tokenization

/-!
# Answers of the console read back

What the console says of a text is the compilation of the text as JSON. Its integers are offsets of
tokens and indices of instructions. A text in memory has fewer than `2 ^ 63` bytes, and then they
fit into 64 bits, so the compilation reads back unless a number in the program is not finite.

There are such numbers. A numeral may have any number of digits, and from 310 digits on it is always
too large for a double and read as infinity. Values have a name for infinity in JSON, expressions
have none: the answer says `null` in the place of the number, and `null` is not read as a number.

## Main results

* `Compilation.fits_ofText` — the integers in the compilation of a text have 64 bits
* `compile_reads_back` — the answer reads back exactly if all numbers in the program are finite
* `compile_not_read_back_of_long` — it does not if a numeral with 310 digits is assigned
-/

namespace Stepwise

/-! ### Integers -/

namespace Token

/-- A token starts inside the text. -/
theorem offset_lt_of_mem_scan {text : String} {t : Token} (h : t ∈ scan text) :
    t.offset < text.utf8ByteSize := by
  obtain ⟨before, after, hsplit, hstands⟩ := (tokenizes_scanFrom 0 text.toList).standsAt t h
  have hpos := Text.byteLength_pos hstands.isMunch.ne_nil
  rw [← Text.byteLength_toList, hsplit, Text.byteLength_append, Text.byteLength_append, offset,
    hstands.start]
  omega

end Token

namespace Compilation

/-- **The integers in the compilation of a text have 64 bits.** -/
theorem fits_ofText {text : String} (h : text.utf8ByteSize < 2 ^ 63) (file : String) :
    (ofText text file).Fits := by
  have hsize : UInt64.size = 2 ^ 64 := rfl
  have hlocated : ∀ {ds}, Check.Located (Token.scan text) ds → ∀ d ∈ ds, d.Fits := by
    intro ds hds d hd offset hoffset
    obtain ⟨t, ht, rfl⟩ := hds d hd offset hoffset
    have hinside := Token.offset_lt_of_mem_scan ht
    omega
  refine ⟨hlocated (located_validateIn Int Int _), hlocated (located_notExecutedNotes _), ?_⟩
  intro program hprogram i hi
  obtain ⟨-, rfl⟩ : _ ∧ Program.ofTokens (Token.scan text) = program := by
    simpa [ofText] using hprogram
  cases i with
  | loop condition stop =>
    have hstop := Program.lt_length_of_mem_ofStmts hi
    have hlength := Program.length_ofTokens_le (Token.scan text)
    have hcount := Token.length_scan_le text
    show stop < UInt64.size
    rw [Program.ofTokens_eq, Stmt.ofTokens] at hlength
    omega
  | loopEnd | assign target value | write args => trivial

end Compilation

/-- A numeral with 310 digits and no zero in front is read as infinity. -/
theorem Numeral.read?_of_long {digits : List Char} (h : IsDigits digits)
    (hhead : digits.head? ≠ some '0') (hlong : 310 ≤ digits.length) :
    Numeral.read? digits = some Double.infinity := by
  have hlarge : 10 ^ 309 ≤ Decimal.ofDigits digits := by
    refine Nat.le_of_not_lt fun hlt => ?_
    have hshort := Decimal.length_le_of_ofDigits_lt h.2 hhead hlt
    omega
  have hpower : 2 ^ 1025 * 1 ≤ 10 ^ 309 := by decide +kernel
  have hne : Decimal.ofDigits digits ≠ 0 :=
    Nat.ne_of_gt (Nat.lt_of_lt_of_le (Nat.pow_pos (by decide)) hlarge)
  have hbits : Decimal.nearestBits (Decimal.ofDigits digits) 0 = Double.infinityBits := by
    have hone : Decimal.powerOfTen 0 = 1 := rfl
    rw [Decimal.nearestBits_eq hne, Int.neg_zero, Int.toNat_zero, hone, Nat.mul_one]
    exact Double.nearestBits_of_large (by decide) (Nat.le_refl _) (Nat.le_trans hpower hlarge)
  rw [(Plain.whole h).read?, List.append_nil, List.length_nil]
  exact congrArg (fun bits => some (Double.ofSignBits false bits)) hbits

section Assignment

variable {target numeral : String} {whole fraction : List Char} {x : Float}

/-- The lexemes of a text that assigns a numeral to a name. -/
theorem map_lexeme_assignment (htarget : Token.IsName target)
    (hnumeral : Numeral.Plain whole fraction numeral.toList) :
    (Token.scan (target ++ " = " ++ numeral ++ " ::")).map Token.lexeme =
      [target, "=", numeral, "::"] := by
  have hblank : ∀ text, Token.Apart (' ' :: text) := Token.apart_of_isBlank (by decide)
  have hspace : ∀ {ls : List String} {text : List Char}, Token.Laid ls text →
      Token.Laid ls (' ' :: text) := fun h => h.blank (by decide)
  have hstop := hspace (Token.Laid.nil.lexeme (s := "::") (Token.stands_terminator _))
  have hright := hspace (hstop.lexeme (Token.stands_plain hnumeral (hblank _)))
  have hsign := hspace (hright.lexeme (s := "=") (Token.stands_relation (by decide) (hblank _)))
  have hlaid := hsign.lexeme (Token.stands_word htarget.word (hblank _))
  refine Eq.trans (congrArg (List.map Token.lexeme) ?_) (hlaid.map_lexeme 0)
  rw [Token.scan]
  simp

/-- Tokens with those lexemes are read as the assignment. -/
theorem exists_readsAs_assignment (htarget : Token.IsName target)
    (hnumeral : Numeral.Plain whole fraction numeral.toList)
    (hread : Numeral.read? numeral.toList = some x) {tokens : List Token}
    (hc : ∀ t ∈ tokens, t.IsClassified)
    (htokens : tokens.map Token.lexeme = [target, "=", numeral, "::"]) :
    ∃ p : Grammar.Phrase, p.tokens = tokens ∧ p.clause? = some (.assign target (.number x)) ∧
      Grammar.ReadsAs [p] [.assign target (.number x)] := by
  obtain ⟨name, _, rfl, hname, htokens⟩ := List.map_eq_cons_iff.mp htokens
  obtain ⟨sign, _, rfl, hsign, htokens⟩ := List.map_eq_cons_iff.mp htokens
  obtain ⟨operand, _, rfl, hoperand, htokens⟩ := List.map_eq_cons_iff.mp htokens
  obtain ⟨stop, rfl, hstop⟩ := List.map_eq_singleton_iff.mp htokens
  simp only [List.forall_mem_cons] at hc
  obtain ⟨hcname, hcsign, hcoperand, hcstop, -⟩ := hc
  have hkind : operand.kind = .number := by rw [hcoperand, hoperand, Token.kind_of_plain hnumeral]
  have hleaf : operand.leaf? = some (.number x) := by
    rw [Token.leaf?, hkind, Expr.literal, hoperand, hread]
  obtain ⟨p, hp, hrole, hclause, hloop⟩ := Stmt.isPhrase_assign_of_spells htarget
    ⟨hcname, hcsign, hcstop⟩ hname hsign hstop (.leaf hleaf (hkind ▸ by decide))
  exact ⟨p, hp, hclause, Grammar.ReadsAs.nil.cons hrole hclause hloop
    (Stmt.partsOfClauses_assign _ _)⟩

/-- The compilation of a text that assigns a numeral to a name. -/
theorem Compilation.ofText_assignment (htarget : Token.IsName target)
    (hnumeral : Numeral.Plain whole fraction numeral.toList)
    (hread : Numeral.read? numeral.toList = some x) (file : String) :
    ofText (target ++ " = " ++ numeral ++ " ::") file =
      ⟨true, [], [], [], some [.assign target (.number x)]⟩ := by
  have hlexemes := map_lexeme_assignment htarget hnumeral
  generalize target ++ " = " ++ numeral ++ " ::" = text at *
  have hc : ∀ t ∈ Token.scan text, t.IsClassified := fun t ht => Token.isClassified_of_mem_scan ht
  obtain ⟨p, hp, hclause, hreads⟩ := exists_readsAs_assignment htarget hnumeral hread hc hlexemes
  have hflat : [p].flatMap Grammar.Phrase.tokens = Token.scan text := by
    rw [List.flatMap_singleton, hp]
  have hagree : Agreement (Token.scan text) [p] := by
    rw [← hflat] at hc ⊢
    exact agreement_of_nested hreads.nested
      (fun q hq t ht => hc t (List.mem_flatMap.mpr ⟨q, hq, ht⟩)) hreads.loopWords
  have hvalid : validate (Token.scan text) = [] :=
    (Check.program_eq_nil_iff hc).mpr ⟨[p], Grammar.nested_iff_foldlM.mp hagree.nested, hflat⟩
  have hnotes : notExecutedNotes (Token.scan text) = [] := by
    rw [hagree.notes, List.filterMap_eq_nil_iff]
    exact hreads.notes
  have hprogram : Program.ofTokens (Token.scan text) = [.assign target (.number x)] := by
    have hclauses := hagree.instructions
    rw [Grammar.clauses_cons_of_some hclause] at hclauses
    obtain ⟨i, hi, hassign⟩ := List.map_eq_singleton_iff.mp hclauses
    cases i with
    | assign =>
      cases hassign
      exact hi
    | loop | loopEnd | write => cases hassign
  rw [ofText, hvalid, hnotes, hprogram]
  rfl

/-- **Too large a numeral cannot be read back.** The answer to a text that assigns it is no
compilation. -/
theorem compile_not_read_back_of_long (htarget : Token.IsName target)
    (hdigits : IsDigits numeral.toList) (hhead : numeral.toList.head? ≠ some '0')
    (hlong : 310 ≤ numeral.toList.length) (file : String) :
    (Compilation.ofText (target ++ " = " ++ numeral ++ " ::") file).toJson.nesting ≤
        Json.maxNesting ∧
      (Json.parse? (Console.compile (target ++ " = " ++ numeral ++ " ::") file)).bind
        Compilation.ofJson? = none := by
  have htext := Compilation.ofText_assignment htarget (.whole hdigits)
    (Numeral.read?_of_long hdigits hhead hlong) file
  have hnesting : (Compilation.ofText (target ++ " = " ++ numeral ++ " ::") file).toJson.nesting ≤
      Json.maxNesting := by
    rw [htext]
    exact (by decide : 4 ≤ Json.maxNesting)
  refine ⟨hnesting, ?_⟩
  rw [Console.compile, Json.parse?_text hnesting, Option.bind_some, htext,
    Compilation.ofJson?_asWritten]
  · rfl
  · refine ⟨fun d hd => (by cases hd), fun d hd => (by cases hd), ?_⟩
    rintro program ⟨⟩ i hi
    rw [List.mem_singleton.mp hi]
    trivial

end Assignment

end Stepwise
