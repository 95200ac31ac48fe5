import Mathlib.Data.Prod.Lex
import Mathlib.Order.Bounds.Basic
import Mathlib.Order.WithBot
import Stepwise.Proofs.Compiled
import Stepwise.Proofs.SourceOrder

/-!
# Lines and columns are those of the bytes

The line table of a text is made from its characters, and what a line and a column are is said of
its bytes: the line of an offset is one more than the number of line ends among the bytes in front
of it, and the column is one more than the number of bytes from the beginning of the line to the
offset. The two agree because the byte of a line end is in the encoding of no other character.

Everything about the search is said by way of the entries around an offset: those before the line
of the offset, the beginning of that line, and those behind the offset. The table always has such a
middle entry, since it begins with zero. So a search that finds the offset and one that would have
to insert it lead to the same line, and neither leaves the table.

## Main definitions

* `Source.StartsLine` — where the lines of a text begin
* `Source.Around` — the entries of a table before, at and behind an offset
* `Source.Answers` — what a binary search of a table may answer
* `Source.Exact` — what there is to say about the line and the column of an offset

## Main results

* `Source.exact` — the line and the column of every offset
* `Source.strictMonoOn_location` — different offsets of a text have different places
* `Compilation.pairwise_position` — a report goes through a text from its beginning to its end
* `Compilation.located_by_lines` — all three
-/

namespace Stepwise

/-! ### Line ends among the bytes -/

namespace Text

/-- The byte of a line end. -/
def lineEnd : UInt8 := 10

/-- The bytes of a text. -/
def bytes (text : String) : List UInt8 := text.toByteArray.data.toList

theorem bytes_eq_flatMap (text : String) :
    bytes text = text.toList.flatMap String.utf8EncodeChar := by
  rw [bytes, ← String.utf8Encode_toList, List.utf8Encode, List.data_toByteArray]

@[simp] theorem length_bytes (text : String) : (bytes text).length = text.utf8ByteSize := rfl

theorem lineEnd_ne_ofNat {n : Nat} (hmin : 0x80 ≤ n) (hmax : n < 0x100) :
    lineEnd ≠ UInt8.ofNat n := by
  intro h
  have hn : lineEnd.toNat = n := by rw [h, UInt8.toNat_ofNat_of_lt' hmax]
  rw [← hn] at hmin
  exact absurd hmin (by decide)

theorem eq_of_lineEnd_mem {c : Char} (h : lineEnd ∈ String.utf8EncodeChar c) : c = '\n' := by
  simp only [String.utf8EncodeChar] at h
  split at h
  · next hshort =>
    have hbyte := congrArg UInt8.toNat (List.mem_singleton.mp h)
    rw [UInt8.toNat_ofNat_of_lt' (Nat.lt_of_le_of_lt hshort (by decide))] at hbyte
    exact Char.val_inj.mp (UInt32.toNat_inj.mp hbyte.symm)
  -- the bytes of the longer characters are all large
  all_goals
    exfalso
    repeat' split at h
    all_goals
      simp only [List.mem_cons, List.not_mem_nil, or_false] at h
      repeat' rcases h with h | h
      all_goals exact lineEnd_ne_ofNat (by omega) (by omega) h

/-- **The byte of a line end is in the encoding of no other character.** -/
theorem idxsOf_utf8EncodeChar (c : Char) (offset : Nat) :
    (String.utf8EncodeChar c).idxsOf lineEnd offset = if c = '\n' then [offset] else [] := by
  split
  · next hc =>
    subst hc
    rfl
  · next hc =>
    refine List.idxsOf_eq_nil_iff.mpr fun b hb => beq_false_of_ne ?_
    rintro rfl
    exact hc (eq_of_lineEnd_mem hb)

end Text

namespace Source

open Text

variable {starts front back : List Nat} {offset start index : Nat}

/-! ### The line table -/

theorem startsAfterLineEnds_eq_idxsOf (offset : Nat) (cs : List Char) :
    startsAfterLineEnds offset cs =
      (cs.flatMap String.utf8EncodeChar).idxsOf lineEnd (offset + 1) := by
  induction cs generalizing offset with
  | nil => rfl
  | cons c cs ih =>
    have hnext : offset + 1 + c.utf8Size = offset + c.utf8Size + 1 := Nat.add_right_comm ..
    rw [List.flatMap_cons, List.idxsOf_append, idxsOf_utf8EncodeChar, String.length_utf8EncodeChar,
      hnext, ← ih, startsAfterLineEnds]
    split
    · next hc =>
      subst hc
      rfl
    · rfl

/-- The table of a text holds zero and the places behind its line ends. -/
theorem toList_lineStarts (name text : String) :
    (ofText name text).lineStarts.toList = 0 :: (bytes text).idxsOf lineEnd 1 := by
  rw [ofText, startsAfterLineEnds_eq_idxsOf, ← bytes_eq_flatMap]

/-- A line begins with the text, and behind each line end. -/
def StartsLine (bytes : List UInt8) (start : Nat) : Prop :=
  start = 0 ∨ ∃ last, bytes[last]? = some lineEnd ∧ start = last + 1

theorem mem_lineStarts {name text : String} :
    start ∈ (ofText name text).lineStarts.toList ↔ StartsLine (bytes text) start := by
  rw [toList_lineStarts, List.mem_cons, List.mem_idxsOf_iff_getElem_sub_pos, StartsLine]
  refine or_congr_right ⟨?_, ?_⟩
  · rintro ⟨hpos, hlt, hbyte⟩
    refine ⟨start - 1, ?_, by omega⟩
    rw [List.getElem?_eq_getElem hlt, beq_iff_eq.mp hbyte]
  · rintro ⟨last, hbyte, rfl⟩
    obtain ⟨hlt, hget⟩ := List.getElem?_eq_some_iff.mp hbyte
    exact ⟨Nat.le_add_left 1 last, hlt, beq_iff_eq.mpr hget⟩

/-- The table is increasing. -/
theorem pairwise_lineStarts (name text : String) :
    (ofText name text).lineStarts.toList.Pairwise (· < ·) := by
  rw [toList_lineStarts, List.pairwise_cons]
  exact ⟨fun start hstart => List.ge_of_mem_idxsOf start hstart, List.pairwise_idxsOf⟩

/-! ### The entries around an offset -/

/-- The entries of a table around an offset: the last one that is not behind it, and the entries
before and behind that one. -/
structure Around (starts : List Nat) (offset : Nat) (front : List Nat) (start : Nat)
    (back : List Nat) : Prop where
  entries : starts = front ++ start :: back
  before : ∀ entry ∈ front, entry < start
  start_le : start ≤ offset
  behind : ∀ entry ∈ back, offset < entry

theorem length_take_bytes {text : String} (h : offset ≤ text.utf8ByteSize) :
    ((bytes text).take offset).length = offset := by
  rw [List.length_take, length_bytes, Nat.min_eq_left h]

/-- The table is cut where the text is cut. -/
theorem toList_lineStarts_eq_append (name : String) {text : String}
    (h : offset ≤ text.utf8ByteSize) :
    (ofText name text).lineStarts.toList =
      (0 :: ((bytes text).take offset).idxsOf lineEnd 1) ++
        ((bytes text).drop offset).idxsOf lineEnd (1 + offset) := by
  conv_lhs => rw [toList_lineStarts, ← List.take_append_drop offset (bytes text)]
  rw [List.idxsOf_append, length_take_bytes h]
  rfl

/-- The table of a text has a last entry that is not behind the offset, and in front of it one entry
for each line end in front of the offset. -/
theorem exists_around (name : String) {text : String} (h : offset ≤ text.utf8ByteSize) :
    ∃ front start back, Around (ofText name text).lineStarts.toList offset front start back ∧
      front.length = ((bytes text).take offset).count lineEnd := by
  obtain ⟨front, start, hfront⟩ : ∃ front start,
      0 :: ((bytes text).take offset).idxsOf lineEnd 1 = front ++ [start] :=
    ⟨_, _, (List.dropLast_append_getLast (List.cons_ne_nil _ _)).symm⟩
  have hentries : (ofText name text).lineStarts.toList =
      front ++ start :: ((bytes text).drop offset).idxsOf lineEnd (1 + offset) := by
    rw [toList_lineStarts_eq_append name h, hfront, List.append_assoc]
    rfl
  have hordered := pairwise_lineStarts name text
  rw [hentries, List.pairwise_append] at hordered
  refine ⟨front, start, _, ⟨hentries, ?_, ?_, ?_⟩, ?_⟩
  · intro entry hentry
    exact hordered.2.2 entry hentry start List.mem_cons_self
  · have hstart : start ∈ 0 :: ((bytes text).take offset).idxsOf lineEnd 1 := by
      rw [hfront]
      exact List.mem_append_right front List.mem_cons_self
    rcases List.mem_cons.mp hstart with rfl | hstart
    · exact Nat.zero_le offset
    · have hlt := List.lt_add_of_mem_idxsOf start hstart
      rw [length_take_bytes h] at hlt
      exact Nat.le_of_lt_succ hlt
  · intro entry hentry
    have hge := List.ge_of_mem_idxsOf entry hentry
    omega
  · have hcount := congrArg List.length hfront
    rw [List.length_cons, List.length_idxsOf, List.length_append] at hcount
    exact (Nat.succ_inj.mp hcount).symm

theorem countP_of_bounds (hfront : ∀ entry ∈ front, entry ≤ offset)
    (hback : ∀ entry ∈ back, offset < entry) :
    (front ++ back).countP (· ≤ offset) = front.length := by
  have hnone : back.countP (· ≤ offset) = 0 := by
    refine List.countP_eq_zero.mpr fun entry hentry => ?_
    have hlt := hback entry hentry
    simpa using hlt
  rw [List.countP_append, hnone, Nat.add_zero, List.countP_eq_length]
  intro entry hentry
  exact decide_eq_true (hfront entry hentry)

namespace Around

variable (h : Around starts offset front start back)

include h

theorem front_le : ∀ entry ∈ front ++ [start], entry ≤ offset := by
  intro entry hentry
  rcases List.mem_append.mp hentry with hmem | hmem
  · exact Nat.le_of_lt (Nat.lt_of_lt_of_le (h.before entry hmem) h.start_le)
  · rw [List.mem_singleton.mp hmem]
    exact h.start_le

/-- So many entries are not behind the offset. -/
theorem countP_eq : starts.countP (· ≤ offset) = front.length + 1 := by
  rw [h.entries, List.append_cons, countP_of_bounds h.front_le h.behind]
  exact List.length_append

theorem isGreatest : IsGreatest {entry | entry ∈ starts ∧ entry ≤ offset} start := by
  constructor
  · refine ⟨?_, h.start_le⟩
    rw [h.entries]
    exact List.mem_append_right front List.mem_cons_self
  · rintro entry ⟨hmem, hle⟩
    rw [h.entries, List.mem_append, List.mem_cons] at hmem
    rcases hmem with hmem | rfl | hmem
    · exact Nat.le_of_lt (h.before entry hmem)
    · exact Nat.le_refl entry
    · exact absurd (h.behind entry hmem) (Nat.not_lt.mpr hle)

theorem getElem?_length : starts[front.length]? = some start := by
  rw [h.entries, List.getElem?_append_right (Nat.le_refl _), Nat.sub_self]
  rfl

theorem getElem?_le {entry : Nat} (hindex : index ≤ front.length)
    (hget : starts[index]? = some entry) : entry ≤ offset := by
  rw [h.entries, List.append_cons, List.getElem?_append_left (by simp; omega)] at hget
  exact h.front_le entry (List.mem_of_getElem? hget)

theorem lt_getElem? {entry : Nat} (hindex : front.length < index)
    (hget : starts[index]? = some entry) : offset < entry := by
  rw [h.entries, List.append_cons, List.getElem?_append_right (by simp; omega)] at hget
  exact h.behind entry (List.mem_of_getElem? hget)

end Around

/-! ### The search -/

/-- **Bisection finds the entries around an offset.** -/
theorem bisect_eq_of_around {table : Array Nat} (h : Around table.toList offset front start back)
    {low high : Nat} (hlow : low ≤ front.length + 1) (hhigh : front.length + 1 ≤ high)
    (hsize : high ≤ table.size) : bisect table offset low high = front.length + 1 := by
  have hget : ∀ i, i < table.size → table.toList[i]? = some (table.getD i 0) := by
    intro i hi
    rw [Array.getElem?_toList, Array.getD_eq_getD_getElem?, Array.getElem?_eq_getElem hi]
    rfl
  fun_induction bisect table offset low high with
  | case1 low high hlt middle hle ih =>
    refine ih (Nat.succ_le_succ (Nat.le_of_not_lt fun hbehind => ?_)) hhigh hsize
    have hlt := h.lt_getElem? hbehind (hget middle (by omega))
    omega
  | case2 low high hlt middle hnot ih =>
    refine ih hlow (Nat.lt_of_not_le fun hbefore => ?_) (by omega)
    exact hnot (h.getElem?_le hbefore (hget middle (by omega)))
  | case3 low high hnot => omega

theorem getD_of_around {table : Array Nat} (h : Around table.toList offset front start back) :
    table.getD front.length 0 = start := by
  rw [Array.getD_eq_getD_getElem?, ← Array.getElem?_toList, h.getElem?_length]
  rfl

theorem lt_size_of_around {table : Array Nat} (h : Around table.toList offset front start back) :
    front.length < table.size := by
  rw [← Array.length_toList, h.entries, List.length_append, List.length_cons]
  omega

theorem location_of_around {s : Source}
    (h : Around s.lineStarts.toList (min offset s.size) front start back) :
    s.location offset = (front.length + 1, min offset s.size - start + 1) := by
  have hline : s.lineOf (min offset s.size) = front.length + 1 :=
    bisect_eq_of_around h (Nat.zero_le _) (lt_size_of_around h) (Nat.le_refl _)
  rw [location, hline, Nat.add_sub_cancel, getD_of_around h]

/-- What a binary search of a table may answer: an index at which the wanted entry stands or, if it
stands nowhere, the index at which it would have to be inserted. -/
inductive Answers (starts : List Nat) (wanted : Nat) : Except Nat Nat → Prop
  | found {index : Nat} : starts[index]? = some wanted → Answers starts wanted (.ok index)
  | missing {front back : List Nat} : starts = front ++ back →
      (∀ entry ∈ front, entry < wanted) → (∀ entry ∈ back, wanted < entry) →
      Answers starts wanted (.error front.length)

/-- The index of the line, from the answer of the search: behind a line that begins in front of the
offset the offset would be inserted. -/
def indexOf : Except Nat Nat → Nat
  | .ok index => index
  | .error index => index - 1

/-- The line and column of an offset as words, from the answer of the search. -/
def words (s : Source) (offset : Nat) (answer : Except Nat Nat) : UInt32 × UInt32 :=
  let start := s.lineStarts.getD (indexOf answer) 0
  (UInt32.ofNat (indexOf answer) + 1, UInt32.ofNat (min offset s.size - start) + 1)

namespace Around

variable (h : Around starts offset front start back)

include h

theorem exists_answer : ∃ answer, Answers starts offset answer := by
  rcases Nat.eq_or_lt_of_le h.start_le with rfl | hlt
  · exact ⟨.ok front.length, .found h.getElem?_length⟩
  · refine ⟨_, .missing (h.entries.trans (List.append_cons ..)) ?_ h.behind⟩
    intro entry hentry
    rcases List.mem_append.mp hentry with hmem | hmem
    · exact (h.before entry hmem).trans hlt
    · rwa [List.mem_singleton.mp hmem]

/-- **All answers lead to one line.** An insertion is never in front of the first line. -/
theorem indexOf_eq {answer : Except Nat Nat} (hanswer : Answers starts offset answer) :
    answer ≠ .error 0 ∧ indexOf answer = front.length := by
  cases hanswer with
  | @found index hget =>
    have hge : front.length ≤ index := by
      refine Nat.le_of_not_lt fun hbefore => ?_
      rw [h.entries, List.getElem?_append_left hbefore] at hget
      have hlt := h.before offset (List.mem_of_getElem? hget)
      exact Nat.lt_irrefl offset (Nat.lt_of_lt_of_le hlt h.start_le)
    have hle : index ≤ front.length :=
      Nat.le_of_not_lt fun hbehind => Nat.lt_irrefl offset (h.lt_getElem? hbehind hget)
    exact ⟨by rintro ⟨⟩, Nat.le_antisymm hle hge⟩
  | @missing before behind hsplit hbefore hbehind =>
    have hcount := h.countP_eq
    rw [hsplit, countP_of_bounds (fun e he => Nat.le_of_lt (hbefore e he)) hbehind] at hcount
    rw [hcount]
    exact ⟨fun h => Nat.succ_ne_zero _ (Except.error.inj h), rfl⟩

end Around

theorem toNat_ofNat_add_one {n : Nat} (h : n < 2 ^ 32 - 1) :
    (UInt32.ofNat n + 1).toNat = n + 1 := by
  rw [UInt32.toNat_add, UInt32.toNat_ofNat_of_lt' (by show n < 2 ^ 32; omega)]
  exact Nat.mod_eq_of_lt (by show n + 1 < 2 ^ 32; omega)

theorem words_of_around {s : Source}
    (h : Around s.lineStarts.toList (min offset s.size) front start back)
    (hfront : front.length ≤ min offset s.size) (hsize : s.size < 2 ^ 32 - 1)
    {answer : Except Nat Nat} (hanswer : Answers s.lineStarts.toList (min offset s.size) answer) :
    (s.words offset answer).map UInt32.toNat UInt32.toNat = s.location offset := by
  have hmin := Nat.min_le_right offset s.size
  rw [words, (h.indexOf_eq hanswer).2, location_of_around h, getD_of_around h, Prod.map_apply,
    toNat_ofNat_add_one (by omega), toNat_ofNat_add_one (by omega)]

/-! ### Places -/

/-- What there is to say about the line and the column of an offset of a text. An offset behind the
end stands for the end. -/
structure Exact (name text : String) (offset : Nat) : Prop where
  /-- The line counts the line ends in front of the offset. -/
  line : ((ofText name text).location offset).1 =
    1 + ((bytes text).take (min offset text.utf8ByteSize)).count lineEnd
  /-- The column counts the bytes since the last beginning of a line. -/
  column : ∃ start,
    IsGreatest {p | StartsLine (bytes text) p ∧ p ≤ min offset text.utf8ByteSize} start ∧
      ((ofText name text).location offset).2 = 1 + (min offset text.utf8ByteSize - start)
  /-- The search of the table has an answer. -/
  searched : ∃ answer,
    Answers (ofText name text).lineStarts.toList (min offset text.utf8ByteSize) answer
  /-- And each answer is an entry of the table. -/
  inTable : ∀ answer,
    Answers (ofText name text).lineStarts.toList (min offset text.utf8ByteSize) answer →
      answer ≠ .error 0 ∧ indexOf answer < (ofText name text).lineStarts.size
  /-- From each answer the same line and column come out, and they are not cut off as words. -/
  inWords : ∀ answer,
    Answers (ofText name text).lineStarts.toList (min offset text.utf8ByteSize) answer →
      ((ofText name text).words offset answer).map UInt32.toNat UInt32.toNat =
        (ofText name text).location offset

/-- **The line and the column of every offset.** -/
theorem exact (name : String) {text : String} (h : text.utf8ByteSize < 2 ^ 32 - 1) (offset : Nat) :
    Exact name text offset := by
  have hle := Nat.min_le_right offset text.utf8ByteSize
  obtain ⟨front, start, back, haround, hcount⟩ := exists_around name hle
  have hlocation := location_of_around (s := ofText name text) haround
  have hfront : front.length ≤ min offset text.utf8ByteSize := by
    rw [hcount]
    exact List.count_le_length.trans (List.length_take_le _ _)
  refine
    { line := ?_
      column := ⟨start, ?_, ?_⟩
      searched := haround.exists_answer
      inTable := fun answer hanswer => ?_
      inWords := fun answer hanswer => words_of_around haround hfront h hanswer }
  · rw [hlocation, hcount, Nat.add_comm]
  · have hgreatest := haround.isGreatest
    simp only [mem_lineStarts] at hgreatest
    exact hgreatest
  · rw [hlocation]
    exact Nat.add_comm ..
  · obtain ⟨hpos, hindex⟩ := haround.indexOf_eq hanswer
    rw [hindex]
    exact ⟨hpos, lt_size_of_around haround⟩

/-- Inside of a text nothing is cut off from an offset. -/
theorem exists_location (name : String) {text : String} (h : offset ≤ text.utf8ByteSize) :
    ∃ front start back, Around (ofText name text).lineStarts.toList offset front start back ∧
      (ofText name text).location offset = (front.length + 1, offset - start + 1) := by
  have hinside : min offset (ofText name text).size = offset := Nat.min_eq_left h
  obtain ⟨front, start, back, haround, -⟩ := exists_around name h
  refine ⟨front, start, back, haround, ?_⟩
  rw [← hinside] at haround
  rw [location_of_around haround, hinside]

/-- **Different offsets of a text have different places**, in the order of the offsets. -/
theorem strictMonoOn_location (name text : String) :
    StrictMonoOn (fun offset => toLex ((ofText name text).location offset))
      (Set.Iic text.utf8ByteSize) := by
  intro offset hoffset offset' hoffset' hlt
  obtain ⟨front, start, back, haround, hlocation⟩ := exists_location name hoffset
  obtain ⟨front', start', back', haround', hlocation'⟩ := exists_location name hoffset'
  have hlines : front.length + 1 ≤ front'.length + 1 := by
    rw [← haround.countP_eq, ← haround'.countP_eq]
    refine List.countP_mono_left fun entry _ hle => ?_
    exact decide_eq_true ((of_decide_eq_true hle).trans (Nat.le_of_lt hlt))
  show toLex _ < toLex _
  rw [hlocation, hlocation', Prod.Lex.toLex_lt_toLex]
  rcases Nat.eq_or_lt_of_le hlines with heq | hlt
  · refine .inr ⟨heq, ?_⟩
    have hstart : some start = some start' := by
      rw [← haround.getElem?_length, ← haround'.getElem?_length, Nat.succ_inj.mp heq]
    have hle := haround.start_le
    rw [← Option.some_inj.mp hstart]
    show offset - start + 1 < offset' - start + 1
    omega
  · exact .inl hlt

theorem location_min (s : Source) (offset : Nat) :
    s.location (min offset s.size) = s.location offset := by
  rw [location, location, Nat.min_assoc, Nat.min_self]

/-- Behind the end of the text all offsets have the place of the end. -/
theorem monotone_location (name text : String) :
    Monotone fun offset => toLex ((ofText name text).location offset) := by
  intro offset offset' hle
  show toLex _ ≤ toLex _
  rw [← location_min _ offset, ← location_min _ offset']
  exact (strictMonoOn_location name text).monotoneOn (Nat.min_le_right ..) (Nat.min_le_right ..)
    (min_le_min_right _ hle)

end Source

/-! ### Reports -/

namespace Diagnostic

/-- The line and column of a diagnostic, or none at the end of the text. -/
def position (d : Diagnostic) (s : Source) : Option (Nat × Nat) := d.offset.map s.location

/-- A position as it stands in front of a line of a report. -/
def positionText (name : String) : Option (Nat × Nat) → String
  | some (line, column) => name ++ ":" ++ toString line ++ ":" ++ toString column
  | none => name

/-- Positions in the order of lines, and in a line in that of columns. The end of the text comes
last. -/
def rank (position : Option (Nat × Nat)) : WithTop (ℕ ×ₗ ℕ) :=
  position.elim ⊤ fun p => ((toLex p : ℕ ×ₗ ℕ) : WithTop (ℕ ×ₗ ℕ))

theorem render_eq (d : Diagnostic) (s : Source) :
    d.render s = positionText s.name (d.position s) ++ ": " ++ codeText d.code ++ " " ++
      d.message := by
  rw [render, position]
  cases d.offset with
  | none => rfl
  | some offset => rfl

end Diagnostic

namespace Compilation

/-- The offsets of the diagnostics never decrease, and those at the end of the text are the last. -/
theorem pairwise_offset {tokens : List Token} (h : Token.Increasing tokens) :
    (validate tokens).Pairwise fun d e =>
      (d.offset = none → e.offset = none) ∧ ∀ a ∈ d.offset, ∀ b ∈ e.offset, a ≤ b := by
  have horder := Check.inOrder_of_sublist h (Check.marks_validateIn_sublist Int Int tokens)
  obtain ⟨front, back, hsplit, hfront, hback, -⟩ := horder.ends
  have hends : (validate tokens).Pairwise fun d e => d.offset = none → e.offset = none := by
    rw [validate, hsplit, List.pairwise_append]
    refine ⟨?_, ?_, ?_⟩
    · exact List.pairwise_of_forall_mem_list fun d hd e _ hnone => absurd hnone (hfront d hd)
    · exact List.pairwise_of_forall_mem_list fun d _ e he _ => hback e he
    · exact fun d hd e _ hnone => absurd hnone (hfront d hd)
  exact hends.and (List.pairwise_filterMap.mp horder.ordered)

/-- **The lines of a report are in the order of the text.** -/
theorem pairwise_position (text name : String) :
    ((ofText text name).diagnostics.map fun d =>
      Diagnostic.rank (d.position (Source.ofText name text))).Pairwise (· ≤ ·) := by
  refine List.pairwise_map.mpr ((pairwise_offset (Token.increasing_scan text)).imp ?_)
  rintro d e ⟨hend, hle⟩
  rw [Diagnostic.position, Diagnostic.position]
  cases he : e.offset with
  | none => exact le_top
  | some offset' =>
    cases hd : d.offset with
    | none =>
      rw [hend hd] at he
      cases he
    | some offset =>
      have hoffsets : offset ≤ offset' := hle offset hd offset' he
      exact WithTop.coe_le_coe.mpr (Source.monotone_location name text hoffsets)

/-- **Lines and columns are exact.** A text whose bytes can be counted in words of 32 bits has its
lines and columns in such words, for every offset, and its line table is never left. Different
offsets have different places, in their order, and a report goes through the text in that order. -/
theorem located_by_lines (text name : String) (h : text.utf8ByteSize < 2 ^ 32 - 1) :
    (∀ offset, Source.Exact name text offset) ∧
      StrictMonoOn (fun offset => toLex ((Source.ofText name text).location offset))
        (Set.Iic text.utf8ByteSize) ∧
      (∀ offset ≤ text.utf8ByteSize, ∀ offset' ≤ text.utf8ByteSize,
        (Source.ofText name text).location offset = (Source.ofText name text).location offset' →
          offset = offset') ∧
      (ofText text name).report = (ofText text name).diagnostics.map (fun d =>
        Diagnostic.positionText name (d.position (Source.ofText name text)) ++ ": " ++
          Diagnostic.codeText d.code ++ " " ++ d.message) ∧
      ((ofText text name).diagnostics.map fun d =>
        Diagnostic.rank (d.position (Source.ofText name text))).Pairwise (· ≤ ·) := by
  have hstrict := Source.strictMonoOn_location name text
  refine ⟨Source.exact name h, hstrict, ?_, ?_, pairwise_position text name⟩
  · intro offset hoffset offset' hoffset' heq
    exact hstrict.injOn hoffset hoffset' (congrArg toLex heq)
  · exact List.map_congr_left fun d _ => d.render_eq _

/-- An offset inside a letter of two bytes, one at a line end, one behind it, the end of the text
and one behind it. The errors at tokens come in their order, and then the one at the end. -/
theorem located_by_lines_umlaut :
    "ü\n)) y\n".utf8ByteSize < 2 ^ 32 - 1 ∧
      [1, 2, 3, 8, 9].map (Source.ofText "t" "ü\n)) y\n").location =
        [(1, 2), (1, 3), (2, 1), (3, 1), (3, 1)] ∧
      (ofText "ü\n)) y\n" "t").diagnostics.map
          (fun d => d.position (Source.ofText "t" "ü\n)) y\n")) =
        [some (2, 1), some (2, 2), none] ∧
      (∀ offset, Source.Exact "t" "ü\n)) y\n" offset) ∧
      ((ofText "ü\n)) y\n" "t").diagnostics.map fun d =>
        Diagnostic.rank (d.position (Source.ofText "t" "ü\n)) y\n"))).Pairwise (· ≤ ·) := by
  have hsize : "ü\n)) y\n".utf8ByteSize < 2 ^ 32 - 1 := by decide +kernel
  obtain ⟨hexact, -, -, -, hordered⟩ := located_by_lines "ü\n)) y\n" "t" hsize
  exact ⟨hsize, by decide +kernel, by decide +kernel, hexact, hordered⟩

end Compilation

end Stepwise
