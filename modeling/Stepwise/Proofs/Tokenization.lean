import Mathlib
import Stepwise.Proofs.Kinds
import Stepwise.Proofs.Shapes

/-!
# The tokens of a text are its lexemes

A text is cut into tokens and characters that belong to none. Each token stands where its span says,
and it is the longest lexeme of the first shape that begins there; the spans follow each other
without overlap; and with a character outside all spans no lexeme begins. These three facts are
`Token.Tokenizes`.

They are facts about a text that begins at an offset, and they are kept when a text grows at its
front, by a character with which no lexeme begins or by a token. A text is cut in just these two
ways, which is `Token.cut_induction`, and the place where a token was found is the only thing that
has to be carried along.

## Main definitions

* `Span.Contains` — the bytes of a span
* `Token.Tokenizes` — what is to be said of the tokens of a text

## Main results

* `Token.cut_induction` — induction on the way in which a text is cut into tokens
* `Token.tokenizes_scanFrom` — the tokens that are scanned are such tokens
* `Token.Tokenizes.eq_scanFrom` — there are no others
* `Token.scan_implements_shapes` — both, said of strings and their bytes
-/

namespace Stepwise

/-- Whether a byte lies inside a span. -/
def Span.Contains (s : Span) (offset : Nat) : Prop := s.start ≤ offset ∧ offset < s.stop

namespace Text

theorem byteLength_eq_utf8ByteSize (cs : List Char) :
    byteLength cs = (String.ofList cs).utf8ByteSize := by
  induction cs with
  | nil => rw [byteLength_nil, String.ofList_nil, String.utf8ByteSize_empty]
  | cons c cs ih =>
    have hsplit : String.ofList (c :: cs) = String.singleton c ++ String.ofList cs := by
      rw [String.singleton_eq_ofList, ← String.ofList_append]
      rfl
    rw [byteLength_cons, ih, hsplit, String.utf8ByteSize_append, String.utf8ByteSize_singleton]

@[simp] theorem byteLength_toList (s : String) : byteLength s.toList = s.utf8ByteSize := by
  rw [byteLength_eq_utf8ByteSize, String.ofList_toList]

theorem byteLength_pos {cs : List Char} (h : cs ≠ []) : 0 < byteLength cs := by
  cases cs with
  | nil => exact absurd rfl h
  | cons c cs => exact Nat.lt_of_lt_of_le c.utf8Size_pos (Nat.le_add_right ..)

/-- Where a text is split in two ways, the shorter beginning is a beginning of the longer one. -/
theorem exists_between {front rest before tail : List Char} (h : front ++ rest = before ++ tail)
    (hle : byteLength front ≤ byteLength before) :
    ∃ between, before = front ++ between ∧ rest = between ++ tail := by
  rcases List.append_eq_append_iff.mp h with ⟨between, rfl, hrest⟩ | ⟨between, rfl, htail⟩
  · exact ⟨between, rfl, hrest⟩
  · have hnil : between = [] := by
      refine Decidable.byContradiction fun hne => ?_
      have hpos := byteLength_pos hne
      rw [byteLength_append] at hle
      omega
    subst hnil
    exact ⟨[], by rw [List.append_nil, List.append_nil], htail.symm⟩

end Text

namespace Token

open Text

/-- The token stands behind `before` and in front of `after` in a text that begins at an offset,
and it is the lexeme that has to be taken there. -/
structure StandsAt (t : Token) (offset : Nat) (before after : List Char) : Prop where
  start : t.span.start = offset + byteLength before
  stop : t.span.stop = offset + byteLength before + byteLength t.lexeme.toList
  isMunch : IsMunch t.lexeme.toList after

/-- The tokens are those of a text that begins at an offset. -/
structure Tokenizes (tokens : List Token) (offset : Nat) (cs : List Char) : Prop where
  standsAt : ∀ t ∈ tokens, ∃ before after, cs = before ++ t.lexeme.toList ++ after ∧
    t.StandsAt offset before after
  ordered : tokens.Pairwise fun t u => t.span.stop ≤ u.span.start
  stray : ∀ before c after, cs = before ++ c :: after →
    (∀ t ∈ tokens, ¬ t.span.Contains (offset + byteLength before)) →
    ∀ shape : Shape, ¬ shape.Begins (c :: after)

variable {t : Token} {tokens : List Token} {offset : Nat} {c : Char}
  {cs lexeme rest before after : List Char}

theorem standsAt_append_iff {front : List Char} :
    t.StandsAt offset (front ++ before) after ↔
      t.StandsAt (offset + byteLength front) before after := by
  have hlength : offset + byteLength (front ++ before) =
      offset + byteLength front + byteLength before := by
    rw [byteLength_append, Nat.add_assoc]
  constructor
  · intro h
    exact ⟨by rw [h.start, hlength], by rw [h.stop, hlength], h.isMunch⟩
  · intro h
    exact ⟨by rw [h.start, hlength], by rw [h.stop, hlength], h.isMunch⟩

/-- At the front of a text, such a token is determined by its lexeme. -/
theorem StandsAt.eq_ofLexeme (h : t.StandsAt offset [] after) (hkind : t.IsClassified) :
    t = ofLexeme t.lexeme ⟨offset, offset + byteLength t.lexeme.toList⟩ := by
  obtain ⟨kind, lexeme, ⟨start, stop⟩⟩ := t
  have hstart : start = offset := h.start
  have hstop : stop = offset + byteLength lexeme.toList := h.stop
  have hkind : kind = .ofLexeme lexeme := hkind
  rw [hstart, hstop, hkind]
  rfl

theorem StandsAt.start_lt_stop (h : t.StandsAt offset before after) :
    t.span.start < t.span.stop := by
  have hpos := byteLength_pos h.isMunch.ne_nil
  rw [h.start, h.stop]
  omega

theorem Tokenizes.offset_le (h : Tokenizes tokens offset cs) (ht : t ∈ tokens) :
    offset ≤ t.span.start := by
  obtain ⟨before, after, -, hstands⟩ := h.standsAt t ht
  rw [hstands.start]
  exact Nat.le_add_right ..

theorem tokenizes_nil (offset : Nat) : Tokenizes [] offset [] where
  standsAt _ h := by cases h
  ordered := .nil
  stray before c after h := by
    cases before with
    | nil => cases h
    | cons => cases h

/-- In front of the text stands a character with which no lexeme begins. -/
theorem Tokenizes.skip (h : Tokenizes tokens (offset + c.utf8Size) cs)
    (hc : ∀ shape : Shape, ¬ shape.Begins (c :: cs)) : Tokenizes tokens offset (c :: cs) where
  standsAt t ht := by
    obtain ⟨before, after, hcs, hstands⟩ := h.standsAt t ht
    have hbehind : t.StandsAt offset ([c] ++ before) after := standsAt_append_iff.mpr hstands
    exact ⟨c :: before, after, by rw [hcs]; rfl, hbehind⟩
  ordered := h.ordered
  stray before d after hsplit houtside := by
    cases before with
    | nil =>
      cases hsplit
      exact hc
    | cons _ before =>
      cases hsplit
      refine h.stray before d after rfl fun t ht => ?_
      rw [Nat.add_assoc]
      exact houtside t ht

/-- In front of the text stands a token. -/
theorem Tokenizes.cons (h : Tokenizes tokens (offset + byteLength lexeme) rest)
    (hlexeme : IsMunch lexeme rest) :
    Tokenizes (ofLexeme (String.ofList lexeme) ⟨offset, offset + byteLength lexeme⟩ :: tokens)
      offset (lexeme ++ rest) where
  standsAt := by
    refine List.forall_mem_cons.mpr ⟨⟨[], rest, ?_, ?_⟩, fun t ht => ?_⟩
    · rw [lexeme_ofLexeme, String.toList_ofList, List.nil_append]
    · exact ⟨rfl, by rw [lexeme_ofLexeme, String.toList_ofList]; rfl,
        by rw [lexeme_ofLexeme, String.toList_ofList]; exact hlexeme⟩
    · obtain ⟨before, after, hrest, hstands⟩ := h.standsAt t ht
      exact ⟨lexeme ++ before, after, by rw [hrest]; simp, standsAt_append_iff.mpr hstands⟩
  ordered := List.pairwise_cons.mpr ⟨fun t ht => h.offset_le ht, h.ordered⟩
  stray before c after hsplit houtside := by
    obtain ⟨houtside, hothers⟩ := List.forall_mem_cons.mp houtside
    -- The character is outside the token, so all of the token stands before it.
    have hlength : byteLength lexeme ≤ byteLength before := by
      refine Nat.le_of_not_lt fun hlt => houtside ⟨Nat.le_add_right .., ?_⟩
      exact Nat.add_lt_add_left hlt offset
    obtain ⟨between, rfl, hrest⟩ := exists_between hsplit hlength
    refine h.stray between c after hrest fun t ht => ?_
    rw [Nat.add_assoc, ← byteLength_append]
    exact hothers t ht

/-! ### Cutting off the front -/

/-- Only one lexeme is the one that has to be taken in front of a text. -/
theorem IsMunch.unique {lexeme' rest' : List Char} (h : IsMunch lexeme rest)
    (h' : IsMunch lexeme' rest') (hsplit : lexeme ++ rest = lexeme' ++ rest') :
    lexeme = lexeme' := by
  obtain ⟨earlier, shape, later, hall, hlongest, hearlier⟩ := h
  obtain ⟨earlier', shape', later', hall', hlongest', hearlier'⟩ := h'
  have hbegins : shape.Begins (lexeme' ++ rest') := ⟨lexeme, rest, hsplit, hlongest.1⟩
  have hbegins' : shape'.Begins (lexeme ++ rest) := ⟨lexeme', rest', hsplit.symm, hlongest'.1⟩
  have hshape : shape = shape' := by
    rcases List.append_eq_append_iff.mp (hall.symm.trans hall') with
      ⟨between, rfl, htail⟩ | ⟨between, rfl, htail⟩
    · cases between with
      | nil => exact (List.cons.inj htail).1
      | cons first between =>
        rw [List.cons_append, List.cons.injEq] at htail
        exact absurd (htail.1 ▸ hbegins)
          (hearlier' first (List.mem_append_right _ List.mem_cons_self))
    · cases between with
      | nil => exact (List.cons.inj htail).1.symm
      | cons first between =>
        rw [List.cons_append, List.cons.injEq] at htail
        exact absurd (htail.1 ▸ hbegins')
          (hearlier first (List.mem_append_right _ List.mem_cons_self))
  subst hshape
  have hle := hlongest.2 lexeme' rest' hsplit.symm hlongest'.1
  have hle' := hlongest'.2 lexeme rest hsplit hlongest.1
  exact List.append_inj_left hsplit (Nat.le_antisymm hle' hle)

theorem isMunch_take {n : Nat} (h : munch (c :: cs) = n + 1) :
    IsMunch (c :: cs.take n) (cs.drop n) := by
  have hne : munch (c :: cs) ≠ 0 := by
    rw [h]
    exact Nat.succ_ne_zero n
  have htake := isMunch_of_munch hne
  rwa [h] at htake

theorem scanFrom_of_not_begins (h : ∀ shape : Shape, ¬ shape.Begins (c :: cs)) :
    scanFrom offset (c :: cs) = scanFrom (offset + c.utf8Size) cs :=
  scanFrom_cons_of_munch_eq_zero (munch_eq_zero_iff.mpr h)

/-- The lexeme that has to be taken in front of a text is the first token. -/
theorem IsMunch.scanFrom_append (h : IsMunch lexeme rest) (offset : Nat) :
    scanFrom offset (lexeme ++ rest) =
      ofLexeme (String.ofList lexeme) ⟨offset, offset + byteLength lexeme⟩ ::
        scanFrom (offset + byteLength lexeme) rest := by
  obtain ⟨shape, hmatches⟩ := h.exists_matches
  have hmunch : munch (lexeme ++ rest) ≠ 0 := fun hzero =>
    not_begins_of_munch hzero shape ⟨lexeme, rest, rfl, hmatches⟩
  obtain ⟨c, cs, hcs⟩ := List.exists_cons_of_ne_nil
    (List.append_ne_nil_of_left_ne_nil h.ne_nil rest)
  rw [hcs] at hmunch ⊢
  obtain ⟨n, hn⟩ := Nat.exists_eq_succ_of_ne_zero hmunch
  have hsplit : c :: cs.take n ++ cs.drop n = c :: cs := by
    rw [List.cons_append, List.take_append_drop]
  have hlexeme : lexeme = c :: cs.take n := h.unique (isMunch_take hn) (hcs.trans hsplit.symm)
  have hrest : rest = cs.drop n := by
    rw [hlexeme, ← hsplit] at hcs
    exact List.append_cancel_left hcs
  rw [scanFrom_cons_of_munch_eq_succ hn, hlexeme, hrest]

/-- Induction on the way in which a text is cut into tokens: in front of it stands a character with
which no lexeme begins, or a lexeme. -/
@[elab_as_elim]
theorem cut_induction {motive : Nat → List Char → Prop} (nil : ∀ offset, motive offset [])
    (stray : ∀ offset c cs, (∀ shape : Shape, ¬ shape.Begins (c :: cs)) →
      motive (offset + c.utf8Size) cs → motive offset (c :: cs))
    (lexeme : ∀ offset lexeme rest, IsMunch lexeme rest →
      motive (offset + byteLength lexeme) rest → motive offset (lexeme ++ rest))
    (offset : Nat) (cs : List Char) : motive offset cs := by
  induction offset, cs using scanFrom.induct with
  | case1 offset => exact nil offset
  | case2 offset c cs hmunch ih => exact stray offset c cs (not_begins_of_munch hmunch) ih
  | case3 offset c cs n hmunch first stop ih =>
    have hsplit : c :: cs = (c :: cs.take n) ++ cs.drop n := by
      rw [List.cons_append, List.take_append_drop]
    rw [hsplit]
    exact lexeme offset _ _ (isMunch_take hmunch) ih

/-! ### The tokens of the scan -/

/-- **The tokens that are scanned** are those of the text. -/
theorem tokenizes_scanFrom (offset : Nat) (cs : List Char) :
    Tokenizes (scanFrom offset cs) offset cs := by
  induction offset, cs using cut_induction with
  | nil offset =>
    rw [scanFrom_nil]
    exact tokenizes_nil offset
  | stray offset c cs hstray ih =>
    rw [scanFrom_of_not_begins hstray]
    exact ih.skip hstray
  | lexeme offset lexeme rest hlexeme ih =>
    rw [hlexeme.scanFrom_append]
    exact ih.cons hlexeme

theorem length_scanFrom_le (offset : Nat) (cs : List Char) :
    (scanFrom offset cs).length ≤ byteLength cs := by
  induction offset, cs using cut_induction with
  | nil offset =>
    rw [scanFrom_nil]
    exact Nat.le_refl 0
  | stray offset c cs hstray ih =>
    rw [scanFrom_of_not_begins hstray, byteLength_cons]
    exact Nat.le_trans ih (Nat.le_add_left ..)
  | lexeme offset lexeme rest hlexeme ih =>
    have hpos := byteLength_pos hlexeme.ne_nil
    rw [hlexeme.scanFrom_append, List.length_cons, byteLength_append]
    omega

/-- A text has no more tokens than bytes. -/
theorem length_scan_le (text : String) : (scan text).length ≤ text.utf8ByteSize :=
  byteLength_toList text ▸ length_scanFrom_le 0 text.toList

/-- The lexeme of a token has a shape. -/
theorem exists_matches_of_mem_scan {text : String} (h : t ∈ scan text) :
    ∃ rest, ∃ shape : Shape, shape.Matches t.lexeme.toList rest := by
  have htokens : Tokenizes (scan text) 0 text.toList := tokenizes_scanFrom 0 text.toList
  obtain ⟨before, after, -, hstands⟩ := htokens.standsAt t h
  exact ⟨after, hstands.isMunch.exists_matches⟩

/-! ### No other tokens -/

/-- The tokens behind the front of a text are those of the rest. -/
theorem Tokenizes.behind {firsts : List Token} {front : List Char}
    (h : Tokenizes (firsts ++ tokens) offset (front ++ rest))
    (hfirsts : ∀ t ∈ firsts, t.span.stop ≤ offset + byteLength front)
    (htokens : ∀ t ∈ tokens, offset + byteLength front ≤ t.span.start) :
    Tokenizes tokens (offset + byteLength front) rest where
  standsAt t ht := by
    obtain ⟨before, after, hsplit, hstands⟩ := h.standsAt t (List.mem_append_right _ ht)
    have hlength : byteLength front ≤ byteLength before := by
      have hstart := htokens t ht
      rw [hstands.start] at hstart
      omega
    rw [List.append_assoc] at hsplit
    obtain ⟨between, rfl, hrest⟩ := exists_between hsplit hlength
    exact ⟨between, after, by rw [hrest, List.append_assoc], standsAt_append_iff.mp hstands⟩
  ordered := (List.pairwise_append.mp h.ordered).2.1
  stray before c after hsplit houtside := by
    refine h.stray (front ++ before) c after (by rw [hsplit, List.append_assoc]) fun t ht => ?_
    rw [byteLength_append, ← Nat.add_assoc]
    rcases List.mem_append.mp ht with hfirst | htoken
    · intro hcontains
      have hstop := hfirsts t hfirst
      have hinside := hcontains.2
      omega
    · exact houtside t htoken

/-- What the tokens of a text say of its front: a character with which no lexeme begins, or the
first token. -/
theorem Tokenizes.cases (h : Tokenizes tokens offset (c :: cs)) :
    ((∀ shape : Shape, ¬ shape.Begins (c :: cs)) ∧ Tokenizes tokens (offset + c.utf8Size) cs) ∨
    ∃ t others rest, tokens = t :: others ∧ c :: cs = t.lexeme.toList ++ rest ∧
      t.StandsAt offset [] rest ∧
      Tokenizes others (offset + byteLength t.lexeme.toList) rest := by
  cases tokens with
  | nil =>
    have hfront : Tokenizes ([] ++ []) offset ([c] ++ cs) := h
    exact .inl ⟨h.stray [] c cs rfl (List.forall_mem_nil _),
      hfront.behind (List.forall_mem_nil _) (List.forall_mem_nil _)⟩
  | cons t others =>
    obtain ⟨before, rest, hsplit, hstands⟩ := h.standsAt t List.mem_cons_self
    obtain ⟨hfollow, -⟩ := List.pairwise_cons.mp h.ordered
    cases before with
    | nil =>
      refine .inr ⟨t, others, rest, rfl, hsplit, hstands, ?_⟩
      have hstop := hstands.stop
      rw [byteLength_nil, Nat.add_zero] at hstop
      have hfront : Tokenizes ([t] ++ others) offset (t.lexeme.toList ++ rest) := by
        rwa [hsplit] at h
      refine hfront.behind ?_ fun u hu => ?_
      · exact List.forall_mem_singleton.mpr (Nat.le_of_eq hstop)
      · rw [← hstop]
        exact hfollow u hu
    | cons d before =>
      -- The first token begins further on, and so do all the others.
      have hd : d = c := (List.cons.inj hsplit).1.symm
      subst hd
      have hbehind : ∀ u ∈ t :: others, offset + d.utf8Size ≤ u.span.start := by
        have hstart := hstands.start
        rw [byteLength_cons] at hstart
        refine List.forall_mem_cons.mpr ⟨by omega, fun u hu => ?_⟩
        have hstop := hfollow u hu
        have hlt := hstands.start_lt_stop
        omega
      refine .inl ⟨h.stray [] d cs rfl fun u hu hcontains => ?_, ?_⟩
      · have hstart := hbehind u hu
        have hle := hcontains.1
        have hpos := d.utf8Size_pos
        rw [byteLength_nil] at hle
        omega
      · have hfront : Tokenizes ([] ++ t :: others) offset ([d] ++ cs) := h
        exact hfront.behind (List.forall_mem_nil _) hbehind

/-- Before the end of a text there is no token. -/
theorem Tokenizes.eq_nil (h : Tokenizes tokens offset []) : tokens = [] := by
  refine List.eq_nil_iff_forall_not_mem.mpr fun t ht => ?_
  obtain ⟨before, after, hsplit, hstands⟩ := h.standsAt t ht
  have hlexeme : t.lexeme.toList = [] :=
    (List.append_eq_nil_iff.mp (List.append_eq_nil_iff.mp hsplit.symm).1).2
  exact hstands.isMunch.ne_nil hlexeme

/-- **There are no other tokens** than those that are scanned. -/
theorem Tokenizes.eq_scanFrom (h : Tokenizes tokens offset cs)
    (hkind : ∀ t ∈ tokens, t.IsClassified) : tokens = scanFrom offset cs := by
  induction hn : cs.length using Nat.strongRecOn generalizing tokens offset cs with
  | ind n ih =>
    subst hn
    cases cs with
    | nil => rw [h.eq_nil, scanFrom_nil]
    | cons c cs =>
      rcases h.cases with ⟨hstray, htail⟩ | ⟨t, others, rest, rfl, hsplit, hstands, htail⟩
      · rw [scanFrom_of_not_begins hstray]
        exact ih _ (Nat.lt_succ_self _) htail hkind rfl
      · obtain ⟨hkindt, hkind⟩ := List.forall_mem_cons.mp hkind
        have hscan := hstands.isMunch.scanFrom_append offset
        rw [String.ofList_toList, ← hstands.eq_ofLexeme hkindt, ← hsplit] at hscan
        rw [hscan]
        refine congrArg (t :: ·) (ih _ ?_ htail hkind rfl)
        have hpos := List.length_pos_iff.mpr hstands.isMunch.ne_nil
        rw [hsplit, List.length_append]
        omega

/-- **The scan implements its list of shapes.** Every token is the text of its span, which is not
empty, and it is the longest lexeme of the first shape that begins there. The spans stand in order
and do not overlap. A character outside all of them begins no lexeme, so it is no letter or digit,
no sign, parenthesis or comma, no colon in front of another one, and no quote that a later one
closes. And the tokens of the text are the only ones of which all this is true. -/
theorem scan_implements_shapes (text : String) :
    (∀ t ∈ scan text, ∃ before after : String,
      text = before ++ t.lexeme ++ after ∧
      t.span = ⟨before.utf8ByteSize, (before ++ t.lexeme).utf8ByteSize⟩ ∧
      t.span.start < t.span.stop ∧
      IsMunch t.lexeme.toList after.toList) ∧
    (scan text).Pairwise (fun t u => t.span.stop ≤ u.span.start) ∧
    (∀ (before : String) (c : Char) (after : String),
      text = before ++ String.singleton c ++ after →
      (∀ t ∈ scan text, ¬ t.span.Contains before.utf8ByteSize) →
      (∀ shape : Shape, ¬ shape.Begins (c :: after.toList)) ∧ IsStray c after.toList) ∧
    ∀ tokens : List Token, Tokenizes tokens 0 text.toList → (∀ t ∈ tokens, t.IsClassified) →
      tokens = scan text := by
  have h : Tokenizes (scan text) 0 text.toList := tokenizes_scanFrom 0 text.toList
  refine ⟨fun t ht => ?_, h.ordered, fun before c after htext houtside => ?_,
    fun tokens htokens hkind => htokens.eq_scanFrom hkind⟩
  · obtain ⟨before, after, hsplit, hstands⟩ := h.standsAt t ht
    refine ⟨String.ofList before, String.ofList after, ?_, ?_, hstands.start_lt_stop, ?_⟩
    · refine String.toList_inj.mp ?_
      rw [hsplit, String.toList_append, String.toList_append, String.toList_ofList,
        String.toList_ofList]
    · have hstart : t.span.start = (String.ofList before).utf8ByteSize := by
        rw [hstands.start, Nat.zero_add, byteLength_eq_utf8ByteSize]
      have hstop : t.span.stop = (String.ofList before ++ t.lexeme).utf8ByteSize := by
        rw [hstands.stop, Nat.zero_add, byteLength_toList, byteLength_eq_utf8ByteSize,
          String.utf8ByteSize_append]
      rw [← hstart, ← hstop]
    · rw [String.toList_ofList]
      exact hstands.isMunch
  · have hsplit : text.toList = before.toList ++ c :: after.toList := by
      rw [htext, String.toList_append, String.toList_append, String.toList_singleton,
        List.append_assoc, List.singleton_append]
    have hbegins := h.stray before.toList c after.toList hsplit fun t ht => by
      rw [Nat.zero_add, byteLength_toList]
      exact houtside t ht
    exact ⟨hbegins, isStray_of_not_begins hbegins⟩

end Token

end Stepwise
