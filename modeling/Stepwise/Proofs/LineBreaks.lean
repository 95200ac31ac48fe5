import Stepwise.Proofs.Tokenization

/-!
# Texts in lines

A text in quotes may go on over the end of a line. So whether what stands behind a line end is a
text or a name depends on all that stands before it, and two texts cannot be cut into tokens one by
one and put together. They can if the quotes of the first come in pairs. Then each quote that the
scan meets in it has its partner in it, too. A quote is never left over, since one that is not
closed is left where it is only if no other follows in the whole text.

Nothing else has a blank in it. No lexeme that is not in quotes goes on over one, and a blank keeps
what stands before it apart from what stands behind it: the only lexemes that look at what follows
are the words with a hyphen, and they look no further than at the next character. So what holds of
line ends holds of every blank.

## Main results

* `Token.Shape.Matches.before_blank` — a lexeme that begins in front of the blank ends there
* `Token.IsMunch.append_blank` — what has to be taken in front of the blank does not depend on the
  text behind it
* `Token.scanFrom_append_blank` — the tokens of two texts with a blank between them
-/

namespace Stepwise

namespace Token

open Text

variable {c : Char} {a b lexeme rest between : List Char} {shape : Shape} {offset : Nat}

namespace Shape

theorem not_isInk_of_isBlank (h : isBlank c = true) : isInk c = false := by
  have hmarks : c ∉ [':', '<', '>', '=', '+', '-', '*', '/', '(', ')', ',', '.'] :=
    notMem_of_any_eq_false h (by decide)
  rw [isInk, isWordPart_of_isBlank h, Bool.false_or, Bool.eq_false_iff, Ne, List.contains_iff_mem]
  exact hmarks

/-- Quotes come in pairs in every lexeme. -/
theorem Matches.even_count_quote (h : shape.Matches lexeme rest) : Even (lexeme.count '"') := by
  rcases h.quoted_or_isInk with rfl | hink
  · obtain ⟨inner, hinner, rfl⟩ := h
    rw [List.count_cons_self, List.count_append, List.count_eq_zero_of_not_mem hinner,
      List.count_singleton_self]
    exact even_two
  · have hnone : '"' ∉ lexeme := fun hmem => absurd (hink _ hmem) (by decide)
    rw [List.count_eq_zero_of_not_mem hnone]
    exact Even.zero

/-- **A lexeme that begins in front of a blank ends in front of it** if the quotes there come in
pairs. -/
theorem Matches.before_blank (h : shape.Matches lexeme rest)
    (hsplit : lexeme ++ rest = a ++ c :: b) (hc : isBlank c = true) (ha : a ≠ [])
    (heven : Even (a.count '"')) : ∃ between, a = lexeme ++ between ∧ rest = between ++ c :: b := by
  rcases List.append_eq_append_iff.mp hsplit with ⟨between, rfl, hrest⟩ | ⟨inside, rfl, hbehind⟩
  · exact ⟨between, rfl, hrest⟩
  cases inside with
  | nil =>
    rw [List.nil_append] at hbehind
    exact ⟨[], by rw [List.append_nil, List.append_nil], hbehind.symm⟩
  | cons d inside =>
    have hd : d = c := (List.cons.inj hbehind).1.symm
    subst hd
    rcases h.quoted_or_isInk with rfl | hink
    · -- The blank would stand between the two quotes, and only the first of them in front of it.
      obtain ⟨inner, hinner, hquoted⟩ := h
      have htwo : (a ++ d :: inside).count '"' = 2 := by
        rw [hquoted, List.count_cons_self, List.count_append,
          List.count_eq_zero_of_not_mem hinner, List.count_singleton_self]
      have hfirst : '"' ∈ a := by
        cases a with
        | nil => exact absurd rfl ha
        | cons e a => exact (List.cons.inj hquoted).1 ▸ List.mem_cons_self
      have hlast : '"' ∈ d :: inside := by
        have hlast := congrArg List.getLast? hquoted
        rw [List.getLast?_append_cons, ← List.cons_append, List.getLast?_append_cons] at hlast
        exact List.mem_of_getLast? hlast
      have hone := List.count_pos_iff.mpr hfirst
      have hone' := List.count_pos_iff.mpr hlast
      rw [List.count_append] at htwo
      have hodd : a.count '"' = 1 := by omega
      rw [hodd] at heven
      exact absurd heven (by decide)
    · have hblank := hink d (List.mem_append_right _ List.mem_cons_self)
      rw [not_isInk_of_isBlank hc] at hblank
      cases hblank

theorem matches_append_blank_iff (hc : isBlank c = true) :
    shape.Matches lexeme (between ++ c :: b) ↔ shape.Matches lexeme between := by
  have hstops : StopsBefore isWordPart (between ++ c :: b) ↔ StopsBefore isWordPart between := by
    cases between with
    | nil => exact iff_of_true (stopsBefore_cons.mpr (isWordPart_of_isBlank hc)) (stopsBefore_nil _)
    | cons d between => exact stopsBefore_cons.trans stopsBefore_cons.symm
  cases shape with
  | word => exact or_congr_right (and_congr_right fun _ => hstops)
  | _ => exact Iff.rfl

theorem begins_append_blank_iff (hc : isBlank c = true) (ha : a ≠ [])
    (heven : Even (a.count '"')) : shape.Begins (a ++ c :: b) ↔ shape.Begins a := by
  constructor
  · rintro ⟨lexeme, rest, hsplit, h⟩
    obtain ⟨between, rfl, rfl⟩ := h.before_blank hsplit hc ha heven
    exact ⟨lexeme, between, rfl, (matches_append_blank_iff hc).mp h⟩
  · rintro ⟨lexeme, between, rfl, h⟩
    exact ⟨lexeme, between ++ c :: b, by rw [List.append_assoc],
      (matches_append_blank_iff hc).mpr h⟩

end Shape

/-- What has to be taken in front of a blank has to be taken there whatever follows the blank. -/
theorem IsMunch.append_blank (h : IsMunch lexeme between) (hc : isBlank c = true)
    (heven : Even ((lexeme ++ between).count '"')) : IsMunch lexeme (between ++ c :: b) := by
  have hne : lexeme ++ between ≠ [] := List.append_ne_nil_of_left_ne_nil h.ne_nil between
  obtain ⟨earlier, shape, later, hall, ⟨hmatches, hlongest⟩, hearlier⟩ := h
  refine ⟨earlier, shape, later, hall, ⟨(Shape.matches_append_blank_iff hc).mpr hmatches,
    fun lexeme' rest' hsplit h' => ?_⟩, fun other hother hbegins => ?_⟩
  · rw [← List.append_assoc] at hsplit
    obtain ⟨between', hfront, rfl⟩ := h'.before_blank hsplit hc hne heven
    exact hlongest lexeme' between' hfront.symm ((Shape.matches_append_blank_iff hc).mp h')
  · rw [← List.append_assoc, Shape.begins_append_blank_iff hc hne heven] at hbegins
    exact hearlier other hother hbegins

/-- With a blank no lexeme begins. -/
theorem not_begins_blank (hc : isBlank c = true) (shape : Shape) : ¬ shape.Begins (c :: b) :=
  not_begins_of_munch (munch_of_isBlank hc b) shape

/-- Taken together, the tokens of two texts are those of the texts with a blank between them. -/
theorem tokenizes_append_blank (hc : isBlank c = true) (heven : Even (a.count '"'))
    (offset : Nat) (b : List Char) :
    Tokenizes (scanFrom offset a ++ scanFrom (offset + byteLength a + c.utf8Size) b) offset
      (a ++ c :: b) := by
  induction offset, a using cut_induction with
  | nil offset =>
    rw [scanFrom_nil, List.nil_append, List.nil_append, byteLength_nil, Nat.add_zero]
    exact (tokenizes_scanFrom _ b).skip (not_begins_blank hc)
  | stray offset d a hstray ih =>
    -- A quote with which no lexeme begins would be the only one that is left.
    have hd : d ≠ '"' := by
      rintro rfl
      rw [List.count_cons_self, List.count_eq_zero_of_not_mem
        ((isStray_of_not_begins hstray).quote rfl)] at heven
      exact absurd heven (by decide)
    have hrest : Even (a.count '"') := by rwa [List.count_cons_of_ne hd] at heven
    rw [scanFrom_of_not_begins hstray, byteLength_cons, ← Nat.add_assoc, List.cons_append]
    refine (ih hrest).skip ?_
    intro shape hbegins
    rw [← List.cons_append,
      Shape.begins_append_blank_iff hc (List.cons_ne_nil d a) heven] at hbegins
    exact hstray shape hbegins
  | lexeme offset lexeme rest hlexeme ih =>
    obtain ⟨shape, hmatches⟩ := hlexeme.exists_matches
    have hrest : Even (rest.count '"') := by
      rw [List.count_append, Nat.even_add] at heven
      exact heven.mp hmatches.even_count_quote
    rw [hlexeme.scanFrom_append, byteLength_append, ← Nat.add_assoc, List.append_assoc]
    exact (ih hrest).cons (hlexeme.append_blank hc heven)

/-- **The tokens of two texts with a blank between them** are those of the one and then those of the
other, if the quotes in the first come in pairs. -/
theorem scanFrom_append_blank (hc : isBlank c = true) (heven : Even (a.count '"'))
    (offset : Nat) (b : List Char) :
    scanFrom offset (a ++ c :: b) =
      scanFrom offset a ++ scanFrom (offset + byteLength a + c.utf8Size) b := by
  refine ((tokenizes_append_blank hc heven offset b).eq_scanFrom fun t ht => ?_).symm
  rcases List.mem_append.mp ht with ht | ht
  · exact isClassified_of_mem_scanFrom ht
  · exact isClassified_of_mem_scanFrom ht

/-! ### Tokens further on -/

/-- Where more bytes stand before a text, its tokens stand further on by as many. -/
theorem scanFrom_add (offset start : Nat) (cs : List Char) :
    scanFrom (offset + start) cs = (scanFrom start cs).map (·.shift offset) := by
  induction start, cs using cut_induction with
  | nil start => rw [scanFrom_nil, scanFrom_nil, List.map_nil]
  | stray start c cs hstray ih =>
    rw [scanFrom_of_not_begins hstray, scanFrom_of_not_begins hstray, Nat.add_assoc, ih]
  | lexeme start lexeme rest hlexeme ih =>
    rw [hlexeme.scanFrom_append, hlexeme.scanFrom_append, List.map_cons, Nat.add_assoc, ih]
    rfl

/-- **Lines are cut into tokens one by one.** Where the quotes in front of a line end come in pairs,
the tokens of the whole text are those of the text before the line end, and behind them those of the
text behind it, further on by what stands before it and the line end. -/
theorem scan_append_lineEnd {front : String} (h : Even (front.toList.count '"')) (back : String) :
    scan (front ++ "\n" ++ back) =
      scan front ++ (scan back).map (·.shift (front.utf8ByteSize + 1)) := by
  have htext : (front ++ "\n" ++ back).toList = front.toList ++ '\n' :: back.toList := by
    rw [String.toList_append, String.toList_append, List.append_assoc]
    rfl
  have hoffset : 0 + byteLength front.toList + '\n'.utf8Size = front.utf8ByteSize + 1 + 0 := by
    rw [byteLength_toList]
    show 0 + front.utf8ByteSize + 1 = _
    omega
  rw [scan, htext, scanFrom_append_blank (by decide) h, hoffset, scanFrom_add]
  rfl

/-- A line end in a text in quotes, one in the middle of a word with a hyphen, and a quote behind it
that nothing closes. -/
theorem scan_append_lineEnd_between_quotes :
    Even ("write(\"::\n\") end".toList.count '"') ∧
      scan ("write(\"::\n\") end" ++ "\n" ++ "-while \" é <") =
        scan "write(\"::\n\") end" ++
          (scan "-while \" é <").map (·.shift ("write(\"::\n\") end".utf8ByteSize + 1)) :=
  ⟨by decide, scan_append_lineEnd (by decide) _⟩

end Token

end Stepwise
