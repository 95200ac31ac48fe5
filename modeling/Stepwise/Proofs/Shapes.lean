import Mathlib
import Stepwise.Proofs.Lexemes

/-!
# The shapes of lexemes

What the patterns take is said here without scanning: a lexeme has one of eight shapes, and a shape
is a set of texts. Only one of them looks at what follows the lexeme, because `end-if` and
`end-while` are words as long as no word goes on behind them.

A pattern does more than to know its shape. Of all the lexemes of that shape that stand in front of
a text it takes the longest, and it takes nothing only if there is none. That is `Shape.Measures`,
and with it the token in front of a text is the longest lexeme of the first shape that has one
there.

## Main definitions

* `Token.Shape.Matches` — the lexemes of a shape
* `Token.Shape.Begins` — a text that a lexeme of a shape stands in front of
* `Token.IsMunch` — a lexeme that is the longest of the first shape that begins there

## Main results

* `Token.Shape.measures` — every pattern takes the longest lexeme of its shape
* `Token.isMunch_of_munch`, `Token.not_begins_of_munch` — the token in front of a text, if any
-/

namespace Stepwise

namespace Token

/-- The shapes of lexemes, in the order in which they are tried. -/
inductive Shape where
  | terminator
  | quoted
  | number
  | wideRelation
  | relation
  | sign
  | word
  | bracket

namespace Shape

/-- All shapes in their order. -/
def all : List Shape :=
  [terminator, quoted, number, wideRelation, relation, sign, word, bracket]

/-- Whether a lexeme has a shape where the rest of the text stands behind it. -/
def Matches (lexeme rest : List Char) : Shape → Prop
  | terminator => lexeme = [':', ':']
  | quoted => ∃ inner, '"' ∉ inner ∧ lexeme = '"' :: (inner ++ ['"'])
  | number => ∃ whole fraction, Numeral.Plain whole fraction lexeme
  | wideRelation => lexeme ∈ [['<', '='], ['<', '>'], ['>', '=']]
  | relation => ∃ c ∈ ['<', '>', '='], lexeme = [c]
  | sign => ∃ c ∈ ['+', '-', '*', '/'], lexeme = [c]
  | word => IsWord lexeme ∨ (lexeme ∈ hyphenated ∧ StopsBefore isWordPart rest)
  | bracket => ∃ c ∈ ['(', ')', ','], lexeme = [c]

/-- Whether a lexeme of a shape stands in front of a text. -/
def Begins (cs : List Char) (shape : Shape) : Prop :=
  ∃ lexeme rest, lexeme ++ rest = cs ∧ shape.Matches lexeme rest

/-- Whether a lexeme has a shape and no longer one of that shape stands there. -/
def IsLongest (lexeme rest : List Char) (shape : Shape) : Prop :=
  shape.Matches lexeme rest ∧
    ∀ lexeme' rest', lexeme' ++ rest' = lexeme ++ rest → shape.Matches lexeme' rest' →
      lexeme'.length ≤ lexeme.length

/-- How a shape is scanned. -/
def pattern : Shape → List Char → Nat
  | terminator => Pattern.terminator
  | quoted => Pattern.quoted
  | number => Pattern.number
  | wideRelation => Pattern.wideRelation
  | relation => Pattern.oneOf ['<', '>', '=']
  | sign => Pattern.oneOf ['+', '-', '*', '/']
  | word => Pattern.word
  | bracket => Pattern.oneOf ['(', ')', ',']

theorem map_pattern_all : all.map pattern = Pattern.all := rfl

/-- Scanning takes the longest lexeme of a shape, if there is one. -/
structure Measures (shape : Shape) (scan : List Char → Nat) : Prop where
  matches_take {cs : List Char} :
    scan cs ≠ 0 → shape.Matches (cs.take (scan cs)) (cs.drop (scan cs))
  length_le {lexeme rest : List Char} : shape.Matches lexeme rest →
    lexeme.length ≤ scan (lexeme ++ rest)

variable {lexeme rest : List Char} {shape : Shape}

/-- No lexeme is empty. -/
theorem Matches.ne_nil (h : shape.Matches lexeme rest) : lexeme ≠ [] := by
  rintro rfl
  cases shape with
  | terminator => cases h
  | quoted =>
    obtain ⟨_, -, h⟩ := h
    cases h
  | number =>
    obtain ⟨_, _, h⟩ := h
    obtain ⟨_, _, h, -⟩ := h.exists_cons
    cases h
  | wideRelation => simp [Matches] at h
  | relation | sign | bracket =>
    obtain ⟨_, -, h⟩ := h
    cases h
  | word =>
    rcases h with ⟨_, _, h, -⟩ | ⟨h, -⟩
    · cases h
    · exact absurd h (by decide)

end Shape

namespace Pattern

variable {c : Char} {cs rest : List Char}

/-! ### Fixed lexemes -/

theorem measures_terminator : Shape.terminator.Measures terminator where
  matches_take {cs} h := by
    unfold terminator at h ⊢
    split at h
    · rfl
    · exact absurd rfl h
  length_le {lexeme rest} h := by
    cases h
    exact Nat.le_refl 2

theorem measures_wideRelation : Shape.wideRelation.Measures wideRelation where
  matches_take {cs} h := by
    unfold wideRelation at h ⊢
    split at h
    · exact .head _
    · exact .tail _ (.head _)
    · exact .tail _ (.tail _ (.head _))
    · exact absurd rfl h
  length_le {lexeme rest} h := by
    simp only [Shape.Matches, List.mem_cons, List.not_mem_nil, or_false] at h
    rcases h with rfl | rfl | rfl <;> exact Nat.le_refl 2

theorem measures_oneOf {shape : Shape} {set : List Char}
    (hshape : ∀ lexeme rest, shape.Matches lexeme rest ↔ ∃ c ∈ set, lexeme = [c]) :
    shape.Measures (oneOf set) where
  matches_take {cs} h := by
    cases cs with
    | nil => exact absurd rfl h
    | cons c cs =>
      by_cases hc : c ∈ set
      · rw [oneOf_eq_one hc]
        exact (hshape _ _).mpr ⟨c, hc, rfl⟩
      · exact absurd (oneOf_eq_zero hc) h
  length_le {lexeme rest} h := by
    obtain ⟨c, hc, rfl⟩ := (hshape _ _).mp h
    exact Nat.le_of_eq (oneOf_eq_one hc).symm

/-! ### Texts in quotes -/

theorem measures_quoted : Shape.quoted.Measures quoted where
  matches_take {cs} h := by
    have hcs : ∃ inner rest, '"' ∉ inner ∧ cs = '"' :: (inner ++ '"' :: rest) := by
      unfold quoted at h
      split at h
      · split at h
        · next hmem =>
          obtain ⟨inner, rest, rfl, hinner⟩ :=
            List.eq_append_cons_of_mem (List.contains_iff_mem.mp hmem)
          exact ⟨inner, rest, hinner, rfl⟩
        · exact absurd rfl h
      · exact absurd rfl h
    obtain ⟨inner, rest, hinner, rfl⟩ := hcs
    rw [quoted_append hinner]
    refine ⟨inner, hinner, ?_⟩
    have hsplit : '"' :: (inner ++ '"' :: rest) = '"' :: (inner ++ ['"']) ++ rest := by simp
    rw [hsplit]
    exact List.take_left' (by simp)
  length_le {lexeme rest} h := by
    obtain ⟨inner, hinner, rfl⟩ := h
    have hsplit : '"' :: (inner ++ ['"']) ++ rest = '"' :: (inner ++ '"' :: rest) := by simp
    rw [hsplit, quoted_append hinner]
    simp

/-! ### Numbers -/

/-- A text begins with a run of characters of a sort, which may be empty. -/
theorem exists_run (p : Char → Bool) (cs : List Char) :
    ∃ run rest, cs = run ++ rest ∧ (∀ c ∈ run, p c = true) ∧ StopsBefore p rest := by
  induction cs with
  | nil => exact ⟨[], [], rfl, List.forall_mem_nil _, stopsBefore_nil p⟩
  | cons c cs ih =>
    cases hc : p c with
    | true =>
      obtain ⟨run, rest, rfl, hrun, hrest⟩ := ih
      exact ⟨c :: run, rest, rfl, List.forall_mem_cons.mpr ⟨hc, hrun⟩, hrest⟩
    | false => exact ⟨[], c :: cs, rfl, List.forall_mem_nil _, stopsBefore_cons.mpr hc⟩

theorem digits_append (h : ∀ c ∈ cs, c.isDigit = true) (rest : List Char) :
    digits (cs ++ rest) = cs.length + digits rest := by
  rw [digits, List.takeWhile_append_of_pos h, List.length_append, digits]

theorem digits_of_stop (h : StopsBefore Char.isDigit rest) : digits rest = 0 := by
  have hnone := (takeWhile_append_stop (List.forall_mem_nil _) h).1
  rw [List.nil_append] at hnone
  rw [digits, hnone, List.length_nil]

theorem digits_le_number (cs : List Char) : digits cs ≤ number cs := by
  simp only [number]
  split
  · next h => exact Nat.le_of_eq h
  · split
    · split
      · exact Nat.le_refl _
      · omega
    · exact Nat.le_refl _

theorem number_fraction {whole fraction : List Char} (h : IsDigits whole)
    (hfraction : IsDigits fraction) (rest : List Char) :
    number (whole ++ '.' :: (fraction ++ rest)) =
      whole.length + 1 + (fraction.length + digits rest) := by
  have hwhole : digits (whole ++ '.' :: (fraction ++ rest)) = whole.length :=
    digits_append h.2 _
  have hpos : whole.length ≠ 0 := fun hzero => h.1 (List.eq_nil_of_length_eq_zero hzero)
  have hpos' : fraction.length + digits rest ≠ 0 := fun hzero =>
    hfraction.1 (List.eq_nil_of_length_eq_zero (Nat.eq_zero_of_add_eq_zero_right hzero))
  simp only [number, hwhole, if_neg hpos, List.drop_left, digits_append hfraction.2,
    if_neg hpos']

theorem number_whole (h : IsDigits cs) (hrest : StopsBefore Char.isDigit rest)
    (hpoint : ∀ fraction rest', rest = '.' :: (fraction ++ rest') → ¬ IsDigits fraction) :
    number (cs ++ rest) = cs.length := by
  have hwhole : digits (cs ++ rest) = cs.length := by
    rw [digits_append h.2, digits_of_stop hrest, Nat.add_zero]
  have hpos : cs.length ≠ 0 := fun hzero => h.1 (List.eq_nil_of_length_eq_zero hzero)
  simp only [number, hwhole, if_neg hpos, List.drop_left]
  split
  · next behind =>
    obtain ⟨fraction, rest', rfl, hfraction, hrest'⟩ := exists_run Char.isDigit behind
    have hnil : fraction = [] := Decidable.byContradiction fun hne =>
      hpoint fraction rest' rfl ⟨hne, hfraction⟩
    rw [hnil, List.nil_append, digits_of_stop hrest', if_pos rfl]
  · rfl

theorem measures_number : Shape.number.Measures number where
  matches_take {cs} h := by
    obtain ⟨whole, rest, rfl, hwhole, hrest⟩ := exists_run Char.isDigit cs
    have hdigits : IsDigits whole := by
      refine ⟨fun hnil => h ?_, hwhole⟩
      rw [hnil, List.nil_append]
      simp only [number, digits_of_stop hrest, if_true]
    by_cases hpoint : ∃ fraction rest', rest = '.' :: (fraction ++ rest') ∧ IsDigits fraction ∧
        StopsBefore Char.isDigit rest'
    · obtain ⟨fraction, rest', rfl, hfraction, hrest'⟩ := hpoint
      rw [number_fraction hdigits hfraction, digits_of_stop hrest', Nat.add_zero]
      have hsplit : whole ++ '.' :: (fraction ++ rest') = (whole ++ '.' :: fraction) ++ rest' := by
        simp
      rw [hsplit, List.take_left' (by simp; omega)]
      exact ⟨whole, fraction, .fraction hdigits hfraction⟩
    · rw [number_whole hdigits hrest, List.take_left]
      · exact ⟨whole, [], .whole hdigits⟩
      · rintro fraction behind rfl hfraction
        obtain ⟨run, rest', rfl, hrun, hrest'⟩ := exists_run Char.isDigit behind
        exact hpoint ⟨fraction ++ run, rest', by simp, hfraction.append hrun, hrest'⟩
  length_le {lexeme rest} h := by
    obtain ⟨whole, fraction, h⟩ := h
    cases h with
    | whole h =>
      have hle := digits_le_number (lexeme ++ rest)
      rw [digits_append h.2] at hle
      omega
    | fraction h hfraction =>
      rw [List.append_assoc, List.cons_append, number_fraction h hfraction, List.length_append,
        List.length_cons]
      omega

/-! ### Words -/

theorem plainWord_le_word (cs : List Char) : plainWord cs ≤ word cs := by
  simp only [word]
  split
  · split
    · split
      · omega
      · exact Nat.le_refl _
    · exact Nat.le_refl _
  · exact Nat.le_refl _

theorem length_le_plainWord (h : IsWord cs) (rest : List Char) :
    cs.length ≤ plainWord (cs ++ rest) := by
  obtain ⟨c, cs', rfl, hc, hcs⟩ := h
  rw [List.cons_append, plainWord, if_pos hc, List.takeWhile_append_of_pos hcs,
    List.length_append, List.length_cons]
  omega

/-- A text that a word stands in front of begins with one behind which no word goes on. -/
theorem exists_word (h : plainWord cs ≠ 0) :
    ∃ plain rest, cs = plain ++ rest ∧ IsWord plain ∧ StopsBefore isWordPart rest := by
  cases cs with
  | nil => exact absurd rfl h
  | cons c cs =>
    cases hc : isWordStart c with
    | false =>
      rw [plainWord, hc, if_neg Bool.false_ne_true] at h
      exact absurd rfl h
    | true =>
      obtain ⟨run, rest, rfl, hrun, hrest⟩ := exists_run isWordPart cs
      exact ⟨c :: run, rest, rfl, ⟨c, run, rfl, hc, hrun⟩, hrest⟩

theorem word_plain (h : IsWord cs) (hrest : StopsBefore isWordPart rest)
    (hhyphen : ∀ hyphen ∈ hyphenated, ∀ rest', cs ++ rest = hyphen ++ rest' →
      ¬ StopsBefore isWordPart rest') :
    word (cs ++ rest) = cs.length := by
  simp only [word, plainWord_append h hrest, List.take_left, List.drop_left]
  split
  · next hend =>
    subst hend
    split
    · next behind =>
      split
      · next htail =>
        -- A tail that is one of the two words ends in front of `behind`.
        have hne : plainWord behind ≠ 0 := by
          intro hzero
          rw [hzero, List.take_zero] at htail
          simp at htail
        obtain ⟨tail, rest', rfl, hword, hstop⟩ := exists_word hne
        rw [plainWord_append hword hstop, List.take_left] at htail
        rcases htail with rfl | rfl
        · exact absurd hstop (hhyphen _ (.head _) rest' rfl)
        · exact absurd hstop (hhyphen _ (.tail _ (.head _)) rest' rfl)
      · rfl
    · rfl
  · rfl

theorem measures_word : Shape.word.Measures word where
  matches_take {cs} h := by
    by_cases hhyphen : ∃ hyphen ∈ hyphenated, ∃ rest, cs = hyphen ++ rest ∧
        StopsBefore isWordPart rest
    · obtain ⟨hyphen, hmem, rest, rfl, hrest⟩ := hhyphen
      rw [word_hyphenated hmem hrest, List.take_left, List.drop_left]
      exact .inr ⟨hmem, hrest⟩
    · have hplain : plainWord cs ≠ 0 := by
        intro hzero
        simp only [word, hzero, List.take_zero] at h
        exact absurd rfl h
      obtain ⟨plain, rest, rfl, hword, hrest⟩ := exists_word hplain
      rw [word_plain hword hrest, List.take_left]
      · exact .inl hword
      · exact fun hyphen hmem rest' heq hstop => hhyphen ⟨hyphen, hmem, rest', heq, hstop⟩
  length_le {lexeme rest} h := by
    rcases h with h | ⟨hmem, hrest⟩
    · exact Nat.le_trans (length_le_plainWord h rest) (plainWord_le_word _)
    · exact Nat.le_of_eq (word_hyphenated hmem hrest).symm

end Pattern

/-! ### The token in front of a text -/

/-- **Every pattern takes the longest lexeme of its shape.** -/
theorem Shape.measures (shape : Shape) : shape.Measures shape.pattern := by
  cases shape with
  | terminator => exact Pattern.measures_terminator
  | quoted => exact Pattern.measures_quoted
  | number => exact Pattern.measures_number
  | wideRelation => exact Pattern.measures_wideRelation
  | relation | sign | bracket => exact Pattern.measures_oneOf fun _ _ => Iff.rfl
  | word => exact Pattern.measures_word

theorem Shape.begins_iff {shape : Shape} {cs : List Char} :
    shape.Begins cs ↔ shape.pattern cs ≠ 0 := by
  constructor
  · rintro ⟨lexeme, rest, rfl, h⟩ hzero
    have hle := shape.measures.length_le h
    rw [hzero] at hle
    exact h.ne_nil (List.eq_nil_of_length_eq_zero (Nat.le_zero.mp hle))
  · intro h
    exact ⟨_, _, List.take_append_drop .., shape.measures.matches_take h⟩

/-- What a pattern takes is the longest lexeme of its shape. -/
theorem Shape.isLongest_take {shape : Shape} {cs : List Char} (h : shape.pattern cs ≠ 0) :
    shape.IsLongest (cs.take (shape.pattern cs)) (cs.drop (shape.pattern cs)) := by
  refine ⟨shape.measures.matches_take h, fun lexeme rest heq hlexeme => ?_⟩
  have hle := shape.measures.length_le hlexeme
  have hlength : lexeme.length + rest.length = cs.length := by
    rw [← List.length_append, heq, List.take_append_drop]
  rw [heq, List.take_append_drop] at hle
  rw [List.length_take]
  omega

/-- The lexeme in front of the rest of a text is the longest one of the first shape that has a
lexeme there. -/
def IsMunch (lexeme rest : List Char) : Prop :=
  ∃ earlier shape later, Shape.all = earlier ++ shape :: later ∧
    shape.IsLongest lexeme rest ∧ ∀ other ∈ earlier, ¬ other.Begins (lexeme ++ rest)

theorem IsMunch.exists_matches {lexeme rest : List Char} (h : IsMunch lexeme rest) :
    ∃ shape : Shape, shape.Matches lexeme rest := by
  obtain ⟨_, shape, _, -, hlongest, -⟩ := h
  exact ⟨shape, hlongest.1⟩

theorem IsMunch.ne_nil {lexeme rest : List Char} (h : IsMunch lexeme rest) : lexeme ≠ [] := by
  obtain ⟨_, hmatches⟩ := h.exists_matches
  exact hmatches.ne_nil

theorem munch_eq (cs : List Char) :
    munch cs =
      ((Shape.all.find? fun shape => shape.pattern cs != 0).map (·.pattern cs)).getD 0 := by
  rw [munch_eq_getD, ← Shape.map_pattern_all, List.find?_map, Option.map_map]
  rfl

/-- **The token in front of a text** is the longest lexeme of the first shape that begins there. -/
theorem isMunch_of_munch {cs : List Char} (h : munch cs ≠ 0) :
    IsMunch (cs.take (munch cs)) (cs.drop (munch cs)) := by
  rw [munch_eq] at h ⊢
  cases hfind : Shape.all.find? fun shape => shape.pattern cs != 0 with
  | none =>
    rw [hfind] at h
    exact absurd rfl h
  | some shape =>
    obtain ⟨hshape, earlier, later, hall, hearlier⟩ := List.find?_eq_some_iff_append.mp hfind
    refine ⟨earlier, shape, later, hall, Shape.isLongest_take (bne_iff_ne.mp hshape), ?_⟩
    intro other hother hbegins
    rw [List.take_append_drop] at hbegins
    exact absurd (bne_iff_ne.mpr (Shape.begins_iff.mp hbegins))
      (by simpa using hearlier other hother)

theorem Shape.mem_all (shape : Shape) : shape ∈ all := by
  cases shape <;> simp [all]

/-- **No token** stands in front of a text if no shape begins there. -/
theorem not_begins_of_munch {cs : List Char} (h : munch cs = 0) (shape : Shape) :
    ¬ shape.Begins cs := by
  intro hbegins
  rw [munch_eq] at h
  cases hfind : Shape.all.find? fun shape => shape.pattern cs != 0 with
  | none =>
    have hzero := List.find?_eq_none.mp hfind shape shape.mem_all
    exact hzero (bne_iff_ne.mpr (Shape.begins_iff.mp hbegins))
  | some first =>
    have hfirst : first.pattern cs ≠ 0 := by simpa using List.find?_some hfind
    rw [hfind] at h
    exact hfirst h

theorem munch_eq_zero_iff {cs : List Char} :
    munch cs = 0 ↔ ∀ shape : Shape, ¬ shape.Begins cs := by
  refine ⟨not_begins_of_munch, fun h => Decidable.byContradiction fun hne => ?_⟩
  obtain ⟨shape, hmatches⟩ := (isMunch_of_munch hne).exists_matches
  exact h shape ⟨_, _, List.take_append_drop .., hmatches⟩

/-! ### Lexemes by themselves -/

namespace Shape

variable {lexeme rest : List Char} {shape : Shape}

/-- A lexeme is a token by itself in front of whatever keeps it apart. -/
theorem Matches.stands (h : shape.Matches lexeme rest) {behind : List Char}
    (hbehind : Apart behind) : Stands lexeme behind := by
  cases shape with
  | terminator =>
    cases h
    exact stands_terminator behind
  | quoted =>
    obtain ⟨inner, hinner, rfl⟩ := h
    exact stands_quoted hinner behind
  | number =>
    obtain ⟨whole, fraction, h⟩ := h
    exact stands_plain h hbehind
  | wideRelation =>
    refine stands_wideRelation ?_ behind
    simp only [Matches, List.mem_cons] at h ⊢
    tauto
  | relation =>
    obtain ⟨c, hc, rfl⟩ := h
    exact stands_relation hc hbehind
  | sign =>
    obtain ⟨c, hc, rfl⟩ := h
    exact stands_sign hc behind
  | word =>
    rcases h with h | ⟨h, -⟩
    · exact stands_word h hbehind
    · exact stands_hyphenated h hbehind
  | bracket =>
    obtain ⟨c, hc, rfl⟩ := h
    exact stands_bracket hc behind

/-- A character of which lexemes other than texts in quotes are made. -/
def isInk (c : Char) : Bool :=
  isWordPart c || [':', '<', '>', '=', '+', '-', '*', '/', '(', ')', ',', '.'].contains c

theorem isInk_of_isWordPart {c : Char} (h : isWordPart c = true) : isInk c = true := by
  rw [isInk, h, Bool.true_or]

theorem isInk_of_isDigit {c : Char} (h : c.isDigit = true) : isInk c = true := by
  refine isInk_of_isWordPart ?_
  rw [isWordPart, Char.isAlphanum, h, Bool.or_true, Bool.true_or]

/-- A lexeme that is no text in quotes is made of ink. -/
theorem Matches.quoted_or_isInk (h : shape.Matches lexeme rest) :
    shape = .quoted ∨ ∀ c ∈ lexeme, isInk c = true := by
  cases shape with
  | quoted => exact .inl rfl
  | number =>
    obtain ⟨whole, fraction, h⟩ := h
    refine .inr ?_
    cases h with
    | whole h => exact fun c hc => isInk_of_isDigit (h.2 c hc)
    | fraction h hfraction =>
      refine List.forall_mem_append.mpr ⟨fun c hc => isInk_of_isDigit (h.2 c hc), ?_⟩
      exact List.forall_mem_cons.mpr ⟨by decide, fun c hc => isInk_of_isDigit (hfraction.2 c hc)⟩
  | word =>
    refine .inr ?_
    rcases h with ⟨c, cs, rfl, hc, hcs⟩ | ⟨h, -⟩
    · exact List.forall_mem_cons.mpr ⟨isInk_of_isWordPart (isWordPart_of_isWordStart hc),
        fun d hd => isInk_of_isWordPart (hcs d hd)⟩
    · have hall : (hyphenated.all fun word => word.all isInk) = true := by decide
      exact List.all_eq_true.mp (List.all_eq_true.mp hall lexeme h)
  | terminator =>
    cases h
    exact .inr (List.all_eq_true.mp (by decide))
  | wideRelation =>
    have hall : ([['<', '='], ['<', '>'], ['>', '=']].all fun r => r.all isInk) = true := by decide
    exact .inr (List.all_eq_true.mp (List.all_eq_true.mp hall lexeme h))
  | relation | sign | bracket =>
    obtain ⟨c, hc, rfl⟩ := h
    exact .inr (List.forall_mem_singleton.mpr (List.all_eq_true.mp (by decide) c hc))

end Shape

/-! ### Characters that begin no lexeme -/

/-- What can be said of a character with which no lexeme begins. -/
structure IsStray (c : Char) (rest : List Char) : Prop where
  notWordPart : isWordPart c = false
  notMem : c ∉ ['+', '-', '*', '/', '<', '>', '=', '(', ')', ',']
  colon : c = ':' → rest.head? ≠ some ':'
  quote : c = '"' → '"' ∉ rest

theorem isStray_of_not_begins {c : Char} {rest : List Char}
    (h : ∀ shape : Shape, ¬ shape.Begins (c :: rest)) : IsStray c rest := by
  refine ⟨Bool.eq_false_iff.mpr fun hpart => ?_, fun hmem => ?_, ?_, ?_⟩
  · by_cases hdigit : c.isDigit = true
    · exact h .number ⟨[c], rest, rfl, [c], [], .whole ⟨by simp, by simpa using hdigit⟩⟩
    · refine h .word ⟨[c], rest, rfl, .inl ⟨c, [], rfl, ?_, List.forall_mem_nil _⟩⟩
      simpa [isWordPart, isWordStart, Char.isAlphanum, hdigit] using hpart
  · have hset : c ∈ ['+', '-', '*', '/'] ++ (['<', '>', '='] ++ ['(', ')', ',']) := hmem
    rcases List.mem_append.mp hset with hsign | hset
    · exact h .sign ⟨[c], rest, rfl, c, hsign, rfl⟩
    · rcases List.mem_append.mp hset with hrelation | hbracket
      · exact h .relation ⟨[c], rest, rfl, c, hrelation, rfl⟩
      · exact h .bracket ⟨[c], rest, rfl, c, hbracket, rfl⟩
  · rintro rfl hhead
    cases rest with
    | nil => cases hhead
    | cons d rest =>
      cases hhead
      exact h .terminator ⟨[':', ':'], rest, rfl, rfl⟩
  · rintro rfl hmem
    obtain ⟨inner, behind, rfl, hinner⟩ := List.eq_append_cons_of_mem hmem
    exact h .quoted ⟨'"' :: (inner ++ ['"']), behind, by simp, inner, hinner, rfl⟩

end Token

end Stepwise
