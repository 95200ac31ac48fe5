import Mathlib
import Stepwise.Text.Blank
import Stepwise.Token.Scan

/-!
# Texts made of lexemes

When a text is put together from lexemes, its tokens are those lexemes only if none of them can be
taken together with what follows it. A word must not run into a word, nor a number into a digit or a
point, nor `<` into `=`, and `end` must not be followed by a hyphen. For a closed set of characters
none of this can happen: behind a blank, a parenthesis or a comma each lexeme of the language stands
by itself. Parentheses, commas, texts in quotes and the end of a statement do whatever follows.

A text in which each lexeme stands by itself, with any blanks in between, is `Laid`, and the tokens
of such a text have exactly those lexemes. What is said of the tokens of a text is then a matter of
lexemes, as the kind of a token is decided by its lexeme.

## Main definitions

* `Numeral.Plain` — digits, and a point with digits behind it if there is a fraction
* `Token.Stands` — a lexeme that is the token in front of a text
* `Token.Apart` — a text before which every lexeme stands by itself
* `Token.Laid` — a text made of lexemes

## Main results

* `Token.Laid.map_lexeme` — the tokens of a text that is laid out of lexemes have those lexemes
-/

namespace Stepwise

/-! ### Where a run of characters stops -/

/-- The text does not go on with a character of the given sort. -/
def StopsBefore (p : Char → Bool) (rest : List Char) : Prop := ∀ c ∈ rest.head?, p c = false

theorem stopsBefore_nil (p : Char → Bool) : StopsBefore p [] := fun c hc => by cases hc

theorem stopsBefore_cons {p : Char → Bool} {c : Char} {rest : List Char} :
    StopsBefore p (c :: rest) ↔ p c = false := by
  constructor
  · intro h
    exact h c rfl
  · intro h c' hc'
    cases hc'
    exact h

theorem notMem_of_any_eq_false {α : Type} {p : α → Bool} {a : α} (ha : p a = true) {set : List α}
    (hset : set.any p = false) : a ∉ set :=
  fun hmem => List.any_eq_false.mp hset a hmem ha

theorem takeWhile_append_stop {p : Char → Bool} {cs rest : List Char} (h : ∀ c ∈ cs, p c = true)
    (hrest : StopsBefore p rest) :
    (cs ++ rest).takeWhile p = cs ∧ (cs ++ rest).dropWhile p = rest := by
  rw [List.takeWhile_append_of_pos h, List.dropWhile_append_of_pos h]
  cases rest with
  | nil => simp
  | cons c rest =>
    have hc := stopsBefore_cons.mp hrest
    simp [hc]

/-! ### Digits -/

/-- A run of digits, with at least one. -/
def IsDigits (cs : List Char) : Prop := cs ≠ [] ∧ ∀ c ∈ cs, c.isDigit = true

namespace IsDigits

variable {cs cs' rest : List Char}

theorem append (h : IsDigits cs) (h' : ∀ c ∈ cs', c.isDigit = true) : IsDigits (cs ++ cs') :=
  ⟨List.append_ne_nil_of_left_ne_nil h.1 cs', List.forall_mem_append.mpr ⟨h.2, h'⟩⟩

theorem exists_cons (h : IsDigits cs) : ∃ c cs', cs = c :: cs' ∧ c.isDigit = true := by
  cases cs with
  | nil => exact absurd rfl h.1
  | cons c cs' => exact ⟨c, cs', rfl, h.2 c List.mem_cons_self⟩

theorem ne_of_isDigit {c d : Char} (h : c.isDigit = true) (hd : d.isDigit = false) : c ≠ d := by
  rintro rfl
  rw [h] at hd
  cases hd

theorem forall_ne_point (h : IsDigits cs) : ∀ c ∈ cs, (c != '.') = true := fun c hc =>
  bne_iff_ne.mpr (ne_of_isDigit (h.2 c hc) (by decide))

end IsDigits

/-! ### Plain numerals -/

namespace Numeral

/-- A numeral without sign and exponent: digits, and a point with digits behind it if there is a
fraction. -/
inductive Plain : (whole fraction text : List Char) → Prop where
  | whole {whole : List Char} : IsDigits whole → Plain whole [] whole
  | fraction {whole fraction : List Char} :
    IsDigits whole → IsDigits fraction → Plain whole fraction (whole ++ '.' :: fraction)

variable {whole fraction text : List Char}

theorem Plain.exists_cons (h : Plain whole fraction text) :
    ∃ c cs, text = c :: cs ∧ c.isDigit = true := by
  cases h with
  | whole h => exact h.exists_cons
  | fraction h _ =>
    obtain ⟨c, cs, rfl, hc⟩ := h.exists_cons
    exact ⟨c, _, List.cons_append .., hc⟩

theorem Plain.isNumeral (h : Plain whole fraction text) : Token.isNumeral text = true := by
  have hrun : ∀ {cs : List Char}, IsDigits cs → (!cs.isEmpty && cs.all Char.isDigit) = true := by
    intro cs h
    rw [Bool.and_eq_true, List.all_eq_true, Bool.not_eq_true', List.isEmpty_eq_false_iff]
    exact h
  cases h with
  | whole h =>
    have hpoint := (takeWhile_append_stop h.forall_ne_point (stopsBefore_nil _)).2
    rw [List.append_nil] at hpoint
    simp only [Token.isNumeral, hpoint]
    exact hrun h
  | fraction h hfraction =>
    have hstop : StopsBefore (· != '.') ('.' :: fraction) := stopsBefore_cons.mpr rfl
    obtain ⟨hwhole, hpoint⟩ := takeWhile_append_stop h.forall_ne_point hstop
    simp only [Token.isNumeral, hpoint, hwhole]
    exact Bool.and_eq_true_iff.mpr ⟨hrun h, hrun hfraction⟩

end Numeral

namespace Token

namespace Pattern

variable {c : Char} {cs : List Char}

theorem terminator_eq_zero (h : c ≠ ':') : terminator (c :: cs) = 0 := by
  unfold terminator
  split
  case h_1 heq =>
    cases heq
    exact absurd rfl h
  case h_2 => rfl

theorem quoted_eq_zero (h : c ≠ '"') : quoted (c :: cs) = 0 := by
  unfold quoted
  split
  case h_1 heq =>
    cases heq
    exact absurd rfl h
  case h_2 => rfl

theorem quoted_append (h : '"' ∉ cs) (rest : List Char) :
    quoted ('"' :: (cs ++ '"' :: rest)) = cs.length + 2 := by
  have hstop : StopsBefore (· != '"') ('"' :: rest) := stopsBefore_cons.mpr rfl
  have hcs : ∀ c ∈ cs, (c != '"') = true := fun c hc => bne_iff_ne.mpr fun heq => h (heq ▸ hc)
  have hmem : (cs ++ '"' :: rest).contains '"' = true :=
    List.contains_iff_mem.mpr (List.mem_append_right _ List.mem_cons_self)
  rw [quoted, if_pos hmem, (takeWhile_append_stop hcs hstop).1]

theorem number_eq_zero (h : c.isDigit = false) : number (c :: cs) = 0 := by
  have hdigits : digits (c :: cs) = 0 := by simp [digits, h]
  simp only [number, hdigits, if_true]

theorem wideRelation_eq_zero (h : c ≠ '<' ∧ c ≠ '>') : wideRelation (c :: cs) = 0 := by
  unfold wideRelation
  split
  case h_1 heq =>
    cases heq
    exact absurd rfl h.1
  case h_2 heq =>
    cases heq
    exact absurd rfl h.1
  case h_3 heq =>
    cases heq
    exact absurd rfl h.2
  case h_4 => rfl

theorem oneOf_eq_zero {set : List Char} (h : c ∉ set) : oneOf set (c :: cs) = 0 := by
  rw [oneOf, if_neg]
  rwa [List.contains_iff_mem]

theorem oneOf_eq_one {set : List Char} (h : c ∈ set) : oneOf set (c :: cs) = 1 := by
  rw [oneOf, if_pos (List.contains_iff_mem.mpr h)]

theorem word_eq_zero (h : isWordStart c = false) : word (c :: cs) = 0 := by
  have hplain : plainWord (c :: cs) = 0 := by
    rw [plainWord, h, if_neg Bool.false_ne_true]
  simp only [word, hplain, List.take_zero]
  rfl

end Pattern

open Pattern

/-- The first pattern that matches gives the token. -/
theorem munch_of_first (before : List (List Char → Nat)) {pattern : List Char → Nat}
    {after : List (List Char → Nat)} {cs : List Char} (hall : all = before ++ pattern :: after)
    (hbefore : ∀ p ∈ before, p cs = 0) (h : pattern cs ≠ 0) : munch cs = pattern cs := by
  have hnone : before.find? (fun p => p cs != 0) = none :=
    List.find?_eq_none.mpr fun p hp => by simp [hbefore p hp]
  rw [munch, hall, List.find?_append, hnone, Option.none_or,
    List.find?_cons_of_pos (by simpa using h)]

theorem munch_eq_zero {cs : List Char} (h : ∀ p ∈ all, p cs = 0) : munch cs = 0 := by
  have hnone : all.find? (fun p => p cs != 0) = none :=
    List.find?_eq_none.mpr fun p hp => by simp [h p hp]
  rw [munch, hnone]

/-! ### Lexemes -/

/-- In front of the rest of a text, the lexeme is a token by itself. -/
structure Stands (lexeme rest : List Char) : Prop where
  ne_nil : lexeme ≠ []
  munch_eq : munch (lexeme ++ rest) = lexeme.length

/-- Behind such a text neither a word nor a number nor a relation goes on. -/
def Apart (rest : List Char) : Prop :=
  StopsBefore (fun c => isWordPart c || ['.', '-', '=', '>'].contains c) rest

variable {c : Char} {cs rest : List Char}

theorem apart_nil : Apart [] := stopsBefore_nil _

theorem apart_cons :
    Apart (c :: rest) ↔ isWordPart c = false ∧ c ∉ ['.', '-', '=', '>'] := by
  rw [Apart, stopsBefore_cons, Bool.or_eq_false_iff, Bool.eq_false_iff, Bool.eq_false_iff,
    Ne, Ne, List.contains_iff_mem, Bool.not_eq_true]

theorem Apart.stopsBefore (h : Apart rest) {p : Char → Bool}
    (hp : ∀ c, p c = true → isWordPart c = true ∨ c ∈ ['.', '-', '=', '>']) :
    StopsBefore p rest := by
  cases rest with
  | nil => exact stopsBefore_nil p
  | cons c rest =>
    obtain ⟨hword, hsign⟩ := apart_cons.mp h
    refine stopsBefore_cons.mpr (Bool.eq_false_iff.mpr fun hc => ?_)
    rcases hp c hc with hpart | hmem
    · rw [hword] at hpart
      cases hpart
    · exact hsign hmem

theorem stands_terminator (rest : List Char) : Stands [':', ':'] rest :=
  ⟨by decide, munch_of_first [] rfl (by simp) (by simp [terminator])⟩

theorem stands_quoted (h : '"' ∉ cs) (rest : List Char) : Stands ('"' :: (cs ++ ['"'])) rest := by
  have hquoted : quoted (('"' :: (cs ++ ['"'])) ++ rest) = (cs ++ ['"']).length + 1 := by
    have hsplit : ('"' :: (cs ++ ['"'])) ++ rest = '"' :: (cs ++ '"' :: rest) := by simp
    rw [hsplit, quoted_append h, List.length_append]
    rfl
  refine ⟨by simp, ?_⟩
  rw [munch_of_first [terminator] rfl (by simp [terminator_eq_zero]) (by rw [hquoted]; simp),
    hquoted]
  rfl

theorem stands_bracket (h : c ∈ ['(', ')', ',']) (rest : List Char) : Stands [c] rest := by
  have hone : oneOf ['(', ')', ','] ([c] ++ rest) = 1 := oneOf_eq_one h
  refine ⟨by simp, ?_⟩
  rw [munch_of_first [terminator, quoted, number, wideRelation, oneOf ['<', '>', '='],
    oneOf ['+', '-', '*', '/'], word] rfl ?_ (by rw [hone]; decide), hone]
  · rfl
  · simp only [List.mem_cons, List.not_mem_nil, or_false] at h
    rcases h with rfl | rfl | rfl <;>
      simp [terminator_eq_zero, quoted_eq_zero, number_eq_zero, wideRelation_eq_zero,
        oneOf_eq_zero, word_eq_zero, isWordStart]

theorem stands_sign (h : c ∈ ['+', '-', '*', '/']) (rest : List Char) : Stands [c] rest := by
  have hone : oneOf ['+', '-', '*', '/'] ([c] ++ rest) = 1 := oneOf_eq_one h
  refine ⟨by simp, ?_⟩
  rw [munch_of_first [terminator, quoted, number, wideRelation, oneOf ['<', '>', '=']] rfl ?_
    (by rw [hone]; decide), hone]
  · rfl
  · simp only [List.mem_cons, List.not_mem_nil, or_false] at h
    rcases h with rfl | rfl | rfl | rfl <;>
      simp [terminator_eq_zero, quoted_eq_zero, number_eq_zero, wideRelation_eq_zero,
        oneOf_eq_zero]

/-- A relation of one character ends where no other can follow to make it wider. -/
theorem stands_relation (h : c ∈ ['<', '>', '=']) (hrest : Apart rest) : Stands [c] rest := by
  have hone : oneOf ['<', '>', '='] ([c] ++ rest) = 1 := oneOf_eq_one h
  refine ⟨by simp, ?_⟩
  rw [munch_of_first [terminator, quoted, number, wideRelation] rfl ?_
    (by rw [hone]; decide), hone]
  · rfl
  · have hwide : wideRelation (c :: rest) = 0 := by
      unfold wideRelation
      split
      case h_1 heq =>
        cases heq
        exact absurd (apart_cons.mp hrest).2 (by decide)
      case h_2 heq =>
        cases heq
        exact absurd (apart_cons.mp hrest).2 (by decide)
      case h_3 heq =>
        cases heq
        exact absurd (apart_cons.mp hrest).2 (by decide)
      case h_4 => rfl
    simp only [List.mem_cons, List.not_mem_nil, or_false] at h
    rcases h with rfl | rfl | rfl <;>
      simp [terminator_eq_zero, quoted_eq_zero, number_eq_zero, hwide]

theorem stands_wideRelation (h : cs ∈ [['<', '='], ['>', '='], ['<', '>']]) (rest : List Char) :
    Stands cs rest := by
  simp only [List.mem_cons, List.not_mem_nil, or_false] at h
  rcases h with rfl | rfl | rfl <;>
  · refine ⟨by simp, ?_⟩
    rw [munch_of_first [terminator, quoted, number] rfl ?_ (by simp [wideRelation])]
    · rfl
    · simp [terminator_eq_zero, quoted_eq_zero, number_eq_zero]

/-! ### Numerals -/

theorem stands_plain {whole fraction text : List Char} (h : Numeral.Plain whole fraction text)
    (hrest : Apart rest) : Stands text rest := by
  have hstop : StopsBefore Char.isDigit rest := by
    refine hrest.stopsBefore fun c hc => .inl ?_
    rw [isWordPart, Char.isAlphanum, hc, Bool.or_true, Bool.true_or]
  have hnumber : number (text ++ rest) = text.length := by
    cases h with
    | whole h =>
      have hwhole : digits (whole ++ rest) = whole.length := by
        rw [digits, (takeWhile_append_stop h.2 hstop).1]
      have hne : whole.length ≠ 0 := fun hzero => h.1 (List.eq_nil_of_length_eq_zero hzero)
      simp only [number, hwhole, if_neg hne, List.drop_left]
      split
      case h_1 => exact absurd (apart_cons.mp hrest).2 (by decide)
      case h_2 => rfl
    | fraction h hfraction =>
      have hpoint : StopsBefore Char.isDigit ('.' :: (fraction ++ rest)) :=
        stopsBefore_cons.mpr rfl
      have hwhole : digits (whole ++ '.' :: (fraction ++ rest)) = whole.length := by
        rw [digits, (takeWhile_append_stop h.2 hpoint).1]
      have htail : digits (fraction ++ rest) = fraction.length := by
        rw [digits, (takeWhile_append_stop hfraction.2 hstop).1]
      have hne : whole.length ≠ 0 := fun hzero => h.1 (List.eq_nil_of_length_eq_zero hzero)
      have hne' : fraction.length ≠ 0 := fun hzero =>
        hfraction.1 (List.eq_nil_of_length_eq_zero hzero)
      simp only [List.append_assoc, List.cons_append, number, hwhole, htail, if_neg hne,
        if_neg hne', List.drop_left, List.length_append, List.length_cons]
      omega
  obtain ⟨c, cs, rfl, hc⟩ := h.exists_cons
  refine ⟨by simp, ?_⟩
  rw [munch_of_first [terminator, quoted] rfl ?_ (by rw [hnumber]; simp), hnumber]
  simp only [List.cons_append, List.forall_mem_cons]
  exact ⟨terminator_eq_zero (IsDigits.ne_of_isDigit hc (by decide)),
    quoted_eq_zero (IsDigits.ne_of_isDigit hc (by decide)), fun p hp => by cases hp⟩

/-! ### Words -/

/-- Letters, digits and underscores that do not begin with a digit. -/
def IsWord (cs : List Char) : Prop :=
  ∃ c cs', cs = c :: cs' ∧ isWordStart c = true ∧ ∀ d ∈ cs', isWordPart d = true

theorem plainWord_append (h : IsWord cs) (hrest : StopsBefore isWordPart rest) :
    plainWord (cs ++ rest) = cs.length := by
  obtain ⟨c, cs', rfl, hc, hcs⟩ := h
  rw [List.cons_append, plainWord, if_pos hc, (takeWhile_append_stop hcs hrest).1]
  rfl

theorem ne_of_isWordStart {d : Char} (hc : isWordStart c = true) (hd : isWordStart d = false) :
    c ≠ d := by
  rintro rfl
  rw [hc] at hd
  cases hd

theorem isDigit_of_isWordStart (hc : isWordStart c = true) : c.isDigit = false := by
  refine Bool.eq_false_iff.mpr fun hdigit => ?_
  simp only [isWordStart, Char.isAlpha, Char.isUpper, Char.isLower, Bool.or_eq_true, beq_iff_eq,
    Bool.and_eq_true, decide_eq_true_eq] at hc
  simp only [Char.isDigit, Bool.and_eq_true, decide_eq_true_eq] at hdigit
  have hlast : c.val.toNat ≤ 57 := hdigit.2
  rcases hc with (⟨hupper, -⟩ | ⟨hlower, -⟩) | rfl
  · have : 65 ≤ c.val.toNat := hupper
    omega
  · have : 97 ≤ c.val.toNat := hlower
    omega
  · exact absurd hlast (by decide)

theorem isWordPart_of_isWordStart (hc : isWordStart c = true) : isWordPart c = true := by
  rw [isWordStart, Bool.or_eq_true] at hc
  rw [isWordPart, Char.isAlphanum, Bool.or_eq_true, Bool.or_eq_true]
  exact hc.imp_left .inl

theorem munch_of_isWordStart (hc : isWordStart c = true) (hword : word (c :: cs) ≠ 0) :
    munch (c :: cs) = word (c :: cs) := by
  refine munch_of_first [terminator, quoted, number, wideRelation, oneOf ['<', '>', '='],
    oneOf ['+', '-', '*', '/']] rfl ?_ hword
  have hne : ∀ d, isWordStart d = false → c ≠ d := fun d => ne_of_isWordStart hc
  have hset : ∀ set : List Char, set.any isWordStart = false → c ∉ set :=
    fun set => notMem_of_any_eq_false hc
  simp only [List.forall_mem_cons]
  exact ⟨terminator_eq_zero (hne _ (by decide)), quoted_eq_zero (hne _ (by decide)),
    number_eq_zero (isDigit_of_isWordStart hc),
    wideRelation_eq_zero ⟨hne _ (by decide), hne _ (by decide)⟩,
    oneOf_eq_zero (hset _ (by decide)), oneOf_eq_zero (hset _ (by decide)),
    fun p hp => by cases hp⟩

theorem stands_word (h : IsWord cs) (hrest : Apart rest) : Stands cs rest := by
  have hplain : plainWord (cs ++ rest) = cs.length :=
    plainWord_append h (hrest.stopsBefore fun c hc => .inl hc)
  have hword : word (cs ++ rest) = cs.length := by
    simp only [word, hplain, List.take_left, List.drop_left]
    split
    · split
      case h_1 => exact absurd (apart_cons.mp hrest).2 (by decide)
      case h_2 => rfl
    · rfl
  obtain ⟨c, cs', rfl, hc, -⟩ := h
  refine ⟨by simp, ?_⟩
  rw [List.cons_append, munch_of_isWordStart hc (by rw [← List.cons_append, hword]; simp)]
  exact hword

/-- The words with a hyphen in them. -/
def hyphenated : List (List Char) :=
  [['e', 'n', 'd', '-', 'i', 'f'], ['e', 'n', 'd', '-', 'w', 'h', 'i', 'l', 'e']]

/-- A word with a hyphen in it is taken as a whole if no word goes on behind it. -/
theorem word_hyphenated (h : cs ∈ hyphenated) (hrest : StopsBefore isWordPart rest) :
    word (cs ++ rest) = cs.length := by
  have hend : IsWord ['e', 'n', 'd'] := ⟨'e', ['n', 'd'], rfl, rfl, List.all_eq_true.mp rfl⟩
  have hif : IsWord ['i', 'f'] := ⟨'i', ['f'], rfl, rfl, List.all_eq_true.mp rfl⟩
  have hwhile : IsWord ['w', 'h', 'i', 'l', 'e'] :=
    ⟨'w', ['h', 'i', 'l', 'e'], rfl, rfl, List.all_eq_true.mp rfl⟩
  have hplain : ∀ behind, plainWord (['e', 'n', 'd'] ++ '-' :: behind) = 3 := fun _ =>
    plainWord_append hend (stopsBefore_cons.mpr (by decide))
  have hplainIf := plainWord_append hif hrest
  have hplainWhile := plainWord_append hwhile hrest
  simp only [List.cons_append, List.nil_append] at hplain hplainIf hplainWhile
  simp only [hyphenated, List.mem_cons, List.not_mem_nil, or_false] at h
  rcases h with rfl | rfl
  · simp [word, hplain, hplainIf]
  · simp [word, hplain, hplainWhile]

/-- A word with a hyphen in it is one token. -/
theorem stands_hyphenated (h : cs ∈ hyphenated) (hrest : Apart rest) : Stands cs rest := by
  have hword : word (cs ++ rest) = cs.length :=
    word_hyphenated h (hrest.stopsBefore fun c hc => .inl hc)
  have hbegins : ∃ c cs', cs = c :: cs' ∧ isWordStart c = true := by
    simp only [hyphenated, List.mem_cons, List.not_mem_nil, or_false] at h
    rcases h with rfl | rfl <;> exact ⟨_, _, rfl, by decide⟩
  obtain ⟨c, cs', rfl, hc⟩ := hbegins
  refine ⟨by simp, ?_⟩
  rw [List.cons_append, munch_of_isWordStart hc (by rw [← List.cons_append, hword]; simp)]
  exact hword

/-- The word that ends a loop is one token, although there is a hyphen in it. -/
theorem stands_endWhile (hrest : Apart rest) :
    Stands ['e', 'n', 'd', '-', 'w', 'h', 'i', 'l', 'e'] rest :=
  stands_hyphenated (.tail _ (.head _)) hrest

/-! ### Blanks -/

theorem toNat_of_isBlank (h : Text.isBlank c = true) : c.toNat < 33 ∨ 126 < c.toNat := by
  have hblanks : ∀ n ∈ Text.blanks, n < 33 ∨ 126 < n := by decide
  exact hblanks _ (List.contains_iff_mem.mp h)

theorem toNat_of_isWordPart (h : isWordPart c = true) : 33 ≤ c.toNat ∧ c.toNat ≤ 126 := by
  simp only [isWordPart, Char.isAlphanum, Char.isAlpha, Char.isUpper, Char.isLower, Char.isDigit,
    Bool.or_eq_true, beq_iff_eq, Bool.and_eq_true, decide_eq_true_eq] at h
  show 33 ≤ c.val.toNat ∧ c.val.toNat ≤ 126
  rcases h with ((⟨hlow, hhigh⟩ | ⟨hlow, hhigh⟩) | ⟨hlow, hhigh⟩) | rfl
  · have hlow : 65 ≤ c.val.toNat := hlow
    have hhigh : c.val.toNat ≤ 90 := hhigh
    omega
  · have hlow : 97 ≤ c.val.toNat := hlow
    have hhigh : c.val.toNat ≤ 122 := hhigh
    omega
  · have hlow : 48 ≤ c.val.toNat := hlow
    have hhigh : c.val.toNat ≤ 57 := hhigh
    omega
  · decide

theorem isWordPart_of_isBlank (h : Text.isBlank c = true) : isWordPart c = false := by
  refine Bool.eq_false_iff.mpr fun hpart => ?_
  have := toNat_of_isBlank h
  have := toNat_of_isWordPart hpart
  omega

theorem apart_of_isBlank (h : Text.isBlank c = true) (rest : List Char) : Apart (c :: rest) :=
  apart_cons.mpr ⟨isWordPart_of_isBlank h, notMem_of_any_eq_false h (by decide)⟩

theorem apart_of_bracket (h : c ∈ ['(', ')', ',']) (rest : List Char) : Apart (c :: rest) := by
  simp only [List.mem_cons, List.not_mem_nil, or_false] at h
  rcases h with rfl | rfl | rfl <;> exact apart_cons.mpr (by decide)

/-- No token begins with a blank. -/
theorem munch_of_isBlank (h : Text.isBlank c = true) (cs : List Char) : munch (c :: cs) = 0 := by
  have hset : ∀ set : List Char, set.any Text.isBlank = false → c ∉ set :=
    fun set => notMem_of_any_eq_false h
  have hne : ∀ d, Text.isBlank d = false → c ≠ d := by
    rintro d hd rfl
    rw [h] at hd
    cases hd
  have hpart := isWordPart_of_isBlank h
  rw [isWordPart, Char.isAlphanum, Bool.or_eq_false_iff, Bool.or_eq_false_iff] at hpart
  have hstart : isWordStart c = false := by
    rw [isWordStart, hpart.1.1, hpart.2]
    rfl
  refine munch_eq_zero ?_
  simp only [all, List.forall_mem_cons]
  exact ⟨terminator_eq_zero (hne _ (by decide)), quoted_eq_zero (hne _ (by decide)),
    number_eq_zero hpart.1.2, wideRelation_eq_zero ⟨hne _ (by decide), hne _ (by decide)⟩,
    oneOf_eq_zero (hset _ (by decide)), oneOf_eq_zero (hset _ (by decide)), word_eq_zero hstart,
    oneOf_eq_zero (hset _ (by decide)), fun p hp => by cases hp⟩

/-! ### Texts made of lexemes -/

/-- The text consists of the lexemes, each of which stands by itself, with blanks between them. -/
inductive Laid : List String → List Char → Prop where
  | nil : Laid [] []
  | blank {c : Char} {lexemes : List String} {text : List Char} (h : Text.isBlank c = true) :
    Laid lexemes text → Laid lexemes (c :: text)
  | cons {lexeme : List Char} {lexemes : List String} {text : List Char}
    (h : Stands lexeme text) : Laid lexemes text →
      Laid (String.ofList lexeme :: lexemes) (lexeme ++ text)

theorem Laid.lexeme {s : String} {lexemes : List String} {text : List Char}
    (h : Laid lexemes text) (hs : Stands s.toList text) :
    Laid (s :: lexemes) (s.toList ++ text) := by
  have hlaid := Laid.cons hs h
  rwa [String.ofList_toList] at hlaid

theorem Laid.blanks {lexemes : List String} {text gap : List Char} (h : Laid lexemes text)
    (hgap : ∀ c ∈ gap, Text.isBlank c = true) : Laid lexemes (gap ++ text) := by
  induction gap with
  | nil => exact h
  | cons c gap ih =>
    rw [List.forall_mem_cons] at hgap
    exact .blank hgap.1 (ih hgap.2)

/-- A lexeme that stands by itself is the first token. -/
theorem Stands.scanFrom_append {lexeme : List Char} (h : Stands lexeme rest) (offset : Nat) :
    scanFrom offset (lexeme ++ rest) =
      ofLexeme (String.ofList lexeme) ⟨offset, offset + Text.byteLength lexeme⟩ ::
        scanFrom (offset + Text.byteLength lexeme) rest := by
  obtain ⟨hne, hmunch⟩ := h
  cases lexeme with
  | nil => exact absurd rfl hne
  | cons c cs =>
    rw [List.cons_append, List.length_cons] at hmunch
    rw [List.cons_append, scanFrom_cons_of_munch_eq_succ hmunch, List.take_left, List.drop_left]

/-- **The tokens of such a text have those lexemes.** -/
theorem Laid.map_lexeme {lexemes : List String} {text : List Char} (h : Laid lexemes text)
    (offset : Nat) : (scanFrom offset text).map Token.lexeme = lexemes := by
  induction h generalizing offset with
  | nil => rw [scanFrom_nil, List.map_nil]
  | blank hc _ ih => rw [scanFrom_cons_of_munch_eq_zero (munch_of_isBlank hc _), ih]
  | cons h _ ih => rw [h.scanFrom_append, List.map_cons, lexeme_ofLexeme, ih]

/-! ### Kinds -/

theorem ne_of_head {s t : String} {c : Char} {cs : List Char} (hs : s.toList = c :: cs)
    (ht : t.toList.head? ≠ some c) : s ≠ t := by
  rintro rfl
  rw [hs] at ht
  exact ht rfl

theorem isQuoted_of_head {c : Char} (hc : c ≠ '"') (cs : List Char) :
    isQuoted (c :: cs) = false := by
  unfold isQuoted
  split
  case h_1 heq =>
    cases heq
    exact absurd rfl hc
  case h_2 => rfl

theorem kind_of_plain {whole fraction : List Char} {s : String}
    (h : Numeral.Plain whole fraction s.toList) : Kind.ofLexeme s = .number := by
  have hnumeral := h.isNumeral
  obtain ⟨c, cs, hs, hc⟩ := h.exists_cons
  have hstop : s ≠ "::" := ne_of_head hs (by
    rintro heq
    cases heq
    cases hc)
  rw [hs] at hnumeral
  rw [Kind.ofLexeme, if_neg hstop, hs,
    isQuoted_of_head (IsDigits.ne_of_isDigit hc (by decide)), if_neg Bool.false_ne_true,
    if_pos hnumeral]

theorem kind_of_quoted {cs : List Char} {s : String} (hs : s.toList = '"' :: (cs ++ ['"']))
    (h : '"' ∉ cs) : Kind.ofLexeme s = .string := by
  have hstop : s ≠ "::" := ne_of_head hs (by decide)
  have hquoted : isQuoted ('"' :: (cs ++ ['"'])) = true := by
    simp [isQuoted, h]
  rw [Kind.ofLexeme, if_neg hstop, hs, if_pos hquoted]

/-- Whether a lexeme begins like a word. -/
def beginsWord (s : String) : Bool := s.toList.head?.any isWordStart

/-- A word that is none of the fixed ones is an identifier. -/
theorem kind_of_word {s : String} (h : IsWord s.toList)
    (hfixed : s ∉ keywords ∧ s ∉ logicWords) : Kind.ofLexeme s = .identifier := by
  obtain ⟨c, cs, hs, hc, hcs⟩ := h
  have hbegins : beginsWord s = true := by
    rw [beginsWord, hs]
    exact hc
  have hne : ∀ t : String, beginsWord t = false → s ≠ t := by
    rintro t ht rfl
    rw [hbegins] at ht
    cases ht
  have hset : ∀ set : List String, set.any beginsWord = false → s ∉ set :=
    fun set => notMem_of_any_eq_false hbegins
  have hnumeral : isNumeral (c :: cs) = false := by
    have hdigit := isDigit_of_isWordStart hc
    have hpoint : (c != '.') = true := bne_iff_ne.mpr (ne_of_isWordStart hc (by decide))
    unfold isNumeral
    simp only
    split
    · simp [hdigit]
    · simp [hpoint, hdigit]
  have hparts : (isWordStart c && cs.all isWordPart) = true := by
    rw [hc, List.all_eq_true.mpr hcs]
    rfl
  have hword : isWordLexeme s = true := by
    rw [isWordLexeme, hs]
    show (_ || _ || (isWordStart c && cs.all isWordPart)) = true
    rw [hparts, Bool.or_true]
  rw [Kind.ofLexeme, if_neg (hne _ (by decide)), hs,
    isQuoted_of_head (ne_of_isWordStart hc (by decide)), if_neg Bool.false_ne_true, hnumeral,
    if_neg Bool.false_ne_true, if_neg (hne _ (by decide)),
    if_neg (not_or_intro (hne _ (by decide)) (hne _ (by decide))), if_neg hfixed.2,
    if_neg (hne _ (by decide)), if_neg (hset _ (by decide)), if_neg (hset _ (by decide)),
    if_neg hfixed.1, if_pos hword]

end Token

end Stepwise
