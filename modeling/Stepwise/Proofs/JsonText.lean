import Mathlib
import Stepwise.Json.Parse
import Stepwise.Proofs.JsonNumbers

/-!
# The text of a value reads back

Any value of JSON has a text, but not every value is one that a text can say. A double without a
numeral is written as `null`, and an integer that does not fit into 64 bits is read as a double.
`Json.asWritten` is the value that the text says, and reading a text gives exactly that, so what is
lost between writing and reading is lost in `asWritten` and nowhere else.

Arrays and objects share their proof, as they share their reader: both are sequences with commas, of
items that are read back in front of a comma or the closing bracket.

## Main definitions

* `Json.asWritten` — the value that the text of a value says

## Main results

* `Json.string?_stringChars` — a string reads back, whatever its characters
* `Json.parse?_text` — the text of a value reads as the value that it says
-/

namespace Stepwise

namespace Json

/-! ### Values as their texts say them -/

mutual

/-- The value that the text of a value says. -/
def asWritten : Json → Json
  | int n => ofWhole (n < 0) n.natAbs
  | double x => if x.isFinite then double x else null
  | array items => array (itemsAsWritten items)
  | object members => object (membersAsWritten members)
  | unreadable => null
  | j => j

/-- The items as their texts say them. -/
def itemsAsWritten : List Json → List Json
  | [] => []
  | j :: rest => j.asWritten :: itemsAsWritten rest

/-- The members as their texts say them. -/
def membersAsWritten : List (String × Json) → List (String × Json)
  | [] => []
  | (name, j) :: rest => (name, j.asWritten) :: membersAsWritten rest

end

@[simp] theorem asWritten_null : null.asWritten = null := by rw [asWritten] <;> simp

@[simp] theorem asWritten_bool (b : Bool) : (bool b).asWritten = bool b := by
  rw [asWritten] <;> simp

@[simp] theorem asWritten_string (s : String) : (string s).asWritten = string s := by
  rw [asWritten] <;> simp

theorem asWritten_double {x : Float} (h : x.isFinite = true) : (double x).asWritten = double x := by
  rw [asWritten, if_pos h]

theorem asWritten_double_of_not_isFinite {x : Float} (h : x.isFinite = false) :
    (double x).asWritten = null := by
  rw [asWritten, if_neg (by rw [h]; exact Bool.false_ne_true)]

/-- A natural number of 64 bits is an integer for who reads it. -/
theorem asWritten_natCast {n : Nat} (h : n < UInt64.size) : (int n).asWritten = int n := by
  rw [asWritten, ofWhole, decide_eq_false (by omega), if_neg Bool.false_ne_true, Int.natAbs_natCast,
    if_pos h]

theorem itemsAsWritten_eq (items : List Json) :
    itemsAsWritten items = items.map asWritten := by
  induction items with
  | nil => rw [itemsAsWritten, List.map_nil]
  | cons j items ih => rw [itemsAsWritten, ih, List.map_cons]

theorem membersAsWritten_eq (members : List (String × Json)) :
    membersAsWritten members = members.map fun m => (m.1, m.2.asWritten) := by
  induction members with
  | nil => rw [membersAsWritten, List.map_nil]
  | cons m members ih => rw [membersAsWritten, ih, List.map_cons]

theorem asWritten_array (items : List Json) :
    (array items).asWritten = array (items.map asWritten) := by
  rw [asWritten, itemsAsWritten_eq]

@[simp] theorem asWritten_object (members : List (String × Json)) :
    (object members).asWritten = object (members.map fun m => (m.1, m.2.asWritten)) := by
  rw [asWritten, membersAsWritten_eq]

/-! ### Strings -/

theorem dropBlanks_cons {c : Char} (hc : (c == ' ' || c == '\n' || c == '\r' || c == '\t') = false)
    (cs : List Char) : dropBlanks (c :: cs) = c :: cs := by
  rw [dropBlanks, List.dropWhile_cons, hc]
  exact if_neg Bool.false_ne_true

theorem hexDigit?_digitChar : ∀ n < 16, hexDigit? n.digitChar = some n := by decide

/-- A control character is written by its code. -/
theorem hex?_control {n : Nat} (h : n < 0x20) (rest : List Char) :
    hex? ('0' :: '0' :: (n / 16).digitChar :: (n % 16).digitChar :: rest) = some (n, rest) := by
  have hzero : hexDigit? '0' = some 0 := rfl
  have hvalue : 0 * 4096 + 0 * 256 + n / 16 * 16 + n % 16 = n := by omega
  rw [hex?, hzero, hexDigit?_digitChar _ (by omega), hexDigit?_digitChar _ (by omega)]
  exact congrArg (fun n => some (n, rest)) hvalue

theorem unicode?_control {c : Char} (h : c.toNat < 0x20) (rest : List Char) :
    unicode? ('0' :: '0' :: (c.toNat / 16).digitChar :: (c.toNat % 16).digitChar :: rest) =
      some (some c, rest) := by
  have hhigh : isHighSurrogate c.toNat = false := by
    rw [isHighSurrogate, decide_eq_false (by omega), Bool.false_and]
  have hlow : isLowSurrogate c.toNat = false := by
    rw [isLowSurrogate, decide_eq_false (by omega), Bool.false_and]
  rw [unicode?, hex?_control h]
  simp only [bind, Option.bind_some, hhigh, hlow, Bool.false_eq_true, if_false, Char.ofNat_toNat]

/-- A character reads back, escaped or not. -/
theorem stringChar?_escape (c : Char) (rest : List Char) :
    stringChar? (escape c ++ rest) = some (some c, rest) := by
  rw [escape]
  split_ifs with hquote hbackslash h h h h h hcontrol
  · rw [hquote]
    rfl
  · rw [hbackslash]
    rfl
  iterate 5
    · rw [h]
      rfl
  · exact unicode?_control hcontrol rest
  · have hplain : ¬ (c = '"' ∨ c = '\\' ∨ c.toNat < 0x20) := by
      simp only [hquote, hbackslash, hcontrol, or_self, not_false_eq_true]
    rw [List.singleton_append, stringChar?]
    · exact if_neg hplain
    · exact fun _ heq _ => hbackslash heq
    · exact fun _ _ heq _ => hbackslash heq

/-- An escaped character does not begin with a quote. -/
theorem exists_cons_escape (c : Char) : ∃ d ds, escape c = d :: ds ∧ d ≠ '"' := by
  have hread := stringChar?_escape c []
  cases hcs : escape c with
  | nil =>
    rw [hcs] at hread
    cases hread
  | cons d ds =>
    refine ⟨d, ds, rfl, ?_⟩
    rintro rfl
    rw [hcs] at hread
    cases hread

/-- The contents of a string read back, up to its quote. -/
theorem stringTail?_flatMap_escape (cs rest : List Char) :
    stringTail? (cs.flatMap escape ++ '"' :: rest) = some (some cs, rest) := by
  induction cs with
  | nil => rw [List.flatMap_nil, List.nil_append, stringTail?]
  | cons c cs ih =>
    obtain ⟨d, ds, hescape, hd⟩ := exists_cons_escape c
    have hread := stringChar?_escape c (cs.flatMap escape ++ '"' :: rest)
    rw [List.flatMap_cons, List.append_assoc]
    rw [hescape] at hread ⊢
    rw [List.cons_append] at hread ⊢
    rw [stringTail?]
    · split
      · rename_i hnone
        rw [hread] at hnone
        cases hnone
      · rename_i c' rest' hsome
        rw [hread] at hsome
        cases hsome
        rw [ih]
        rfl
    · exact fun _ heq => hd (List.cons.inj heq).1

/-- **A string reads back**, whatever its characters. -/
theorem string?_stringChars (s : String) (rest : List Char) :
    string? (stringChars s ++ rest) = some (some s, rest) := by
  rw [stringChars, List.cons_append, List.append_assoc, string?]
  simp only [List.singleton_append]
  rw [stringTail?_flatMap_escape, Option.map_some, Option.map_some, String.ofList_toList]

/-- The name of a member reads back, with its colon. -/
theorem name?_stringChars (name : String) (rest : List Char) :
    name? (stringChars name ++ ':' :: rest) = some (some name, rest) := by
  have hblanks : dropBlanks (stringChars name ++ ':' :: rest) = stringChars name ++ ':' :: rest :=
    dropBlanks_cons rfl _
  rw [name?, hblanks, string?_stringChars]
  rfl

/-! ### Where values begin -/

/-- Whether a value can begin with the character. -/
def startsValue (c : Char) : Bool :=
  c.isDigit || c == '-' || c == '"' || c == 'n' || c == 't' || c == 'f' || c == '[' || c == '{'

theorem ne_of_startsValue {c d : Char} (hc : startsValue c = true) (hd : startsValue d = false) :
    c ≠ d := by
  rintro rfl
  rw [hc] at hd
  cases hd

theorem dropBlanks_of_startsValue {c : Char} (hc : startsValue c = true) (cs : List Char) :
    dropBlanks (c :: cs) = c :: cs := by
  refine dropBlanks_cons ?_ cs
  simp only [Bool.or_eq_false_iff, beq_eq_false_iff_ne]
  exact ⟨⟨⟨ne_of_startsValue hc rfl, ne_of_startsValue hc rfl⟩, ne_of_startsValue hc rfl⟩,
    ne_of_startsValue hc rfl⟩

/-- What is read as a number begins with a minus or a digit. -/
theorem exists_cons_of_number? {cs : List Char} {r : Json × List Char} (h : number? cs = some r) :
    ∃ c cs', cs = c :: cs' ∧ (c.isDigit || c == '-') = true := by
  cases cs with
  | nil => cases h
  | cons c cs =>
    refine ⟨c, cs, rfl, ?_⟩
    rw [Bool.or_eq_true, beq_iff_eq]
    by_contra hc
    obtain ⟨hdigit, hminus⟩ := not_or.mp hc
    have hnone : wholeDigits? (c :: cs) = none := by
      rw [wholeDigits?]
      · simp only [Numeral.scanDigits, List.takeWhile_cons, if_neg hdigit, if_true]
      · intro rest heq
        rw [(List.cons.inj heq).1] at hdigit
        exact hdigit rfl
    rw [number?, magnitude?, hnone] at h
    · cases h
    · exact fun _ heq => hminus (List.cons.inj heq).1

/-- A number is no other value. -/
theorem value?_of_number? {cs : List Char} {r : Json × List Char} (h : number? cs = some r)
    (depth : Nat) : value? depth cs = some r := by
  obtain ⟨c, cs, rfl, hc⟩ := exists_cons_of_number? h
  have hne : ∀ d cs', (d.isDigit || d == '-') = false → c :: cs ≠ d :: cs' := by
    rintro d cs' hd heq
    rw [(List.cons.inj heq).1, hd] at hc
    cases hc
  have hblanks : dropBlanks (c :: cs) = c :: cs :=
    dropBlanks_of_startsValue (by simp only [startsValue, hc, Bool.true_or]) cs
  have hscalar : scalar? (c :: cs) = some r := by
    rw [scalar?, h]
    · exact fun _ => hne 'n' _ rfl
    · exact fun _ => hne 't' _ rfl
    · exact fun _ => hne 'f' _ rfl
    · exact fun _ => hne '"' _ rfl
  cases depth with
  | zero =>
    have hopened : Bracket.opened? (c :: cs) = none := by
      rw [Bracket.opened?]
      · exact fun _ => hne '[' _ rfl
      · exact fun _ => hne '{' _ rfl
    rw [value?, hblanks, hopened]
    exact hscalar
  | succ depth =>
    rw [value?, valueWith?, hblanks]
    split
    case h_1 heq => exact absurd heq (hne '[' _ rfl)
    case h_2 heq => exact absurd heq (hne '{' _ rfl)
    case h_3 => exact hscalar

theorem value?_string (s : String) (rest : List Char) (depth : Nat) :
    value? depth (stringChars s ++ rest) = some (string s, rest) := by
  have hscalar : value? depth (stringChars s ++ rest) =
      (string? (stringChars s ++ rest)).map fun read => (ofString read.1, read.2) := by
    cases depth <;> rfl
  rw [hscalar, string?_stringChars]
  rfl

theorem value?_null (rest : List Char) (depth : Nat) :
    value? depth ('n' :: 'u' :: 'l' :: 'l' :: rest) = some (null, rest) := by
  cases depth <;> rfl

theorem value?_true (rest : List Char) (depth : Nat) :
    value? depth ('t' :: 'r' :: 'u' :: 'e' :: rest) = some (bool true, rest) := by
  cases depth <;> rfl

theorem value?_false (rest : List Char) (depth : Nat) :
    value? depth ('f' :: 'a' :: 'l' :: 's' :: 'e' :: rest) = some (bool false, rest) := by
  cases depth <;> rfl

/-! ### Sequences -/

section Sequences

variable {α β : Type} {item : List Char → Option (β × List Char)} {close : Char}
  {before : α → List Char → List Char} {value : α → β}

/-- The text of the items behind the first, each with its comma, in front of other text. -/
def furtherBefore (before : α → List Char → List Char) : List α → List Char → List Char
  | [], rest => rest
  | a :: as, rest => ',' :: before a (furtherBefore before as rest)

/-- Items are read one by one, if each is read in front of a comma and of the bracket. -/
theorem sequence?_before (hclose : close = ']' ∨ close = '}') {rest : List Char} {as : List α}
    {a : α} {rounds : Nat} (hrounds : as.length < rounds)
    (hitem : ∀ b ∈ a :: as, ∀ c behind, c = ',' ∨ c = close →
      item (before b (c :: behind)) = some (value b, c :: behind)) :
    sequence? item close rounds (before a (furtherBefore before as (close :: rest))) =
      some ((a :: as).map value, rest) := by
  induction as generalizing a rounds with
  | nil =>
    obtain ⟨rounds, rfl⟩ := Nat.exists_eq_succ_of_ne_zero (Nat.ne_of_gt hrounds)
    have hread := hitem a List.mem_cons_self close rest (.inr rfl)
    rw [furtherBefore, sequence?, hread]
    rcases hclose with rfl | rfl <;> rfl
  | cons b as ih =>
    obtain ⟨rounds, rfl⟩ := Nat.exists_eq_succ_of_ne_zero (Nat.ne_of_gt (Nat.zero_lt_of_lt hrounds))
    have hread := hitem a List.mem_cons_self ','
      (before b (furtherBefore before as (close :: rest))) (.inl rfl)
    have hothers : sequence? item close rounds
        (before b (furtherBefore before as (close :: rest))) = some ((b :: as).map value, rest) :=
      ih (Nat.lt_of_succ_lt_succ hrounds) fun d hd => hitem d (List.mem_cons_of_mem a hd)
    rw [furtherBefore, sequence?, hread]
    show (sequence? item close rounds _).bind _ = _
    rw [hothers]
    rfl

theorem length_furtherBefore {as : List α}
    (hbefore : ∀ a ∈ as, ∀ behind, behind.length ≤ (before a behind).length) (rest : List Char) :
    as.length + rest.length ≤ (furtherBefore before as rest).length := by
  induction as with
  | nil => rw [furtherBefore, List.length_nil, Nat.zero_add]
  | cons a as ih =>
    have hstep := hbefore a List.mem_cons_self (furtherBefore before as rest)
    have hothers := ih fun b hb => hbefore b (List.mem_cons_of_mem a hb)
    rw [furtherBefore, List.length_cons, List.length_cons]
    omega

/-- The items of a sequence, if each begins with something else than a blank or the bracket. -/
theorem items?_before (hclose : close = ']' ∨ close = '}') {rest : List Char} {a : α} {as : List α}
    (hstart : ∀ behind, ∃ c cs, before a behind = c :: cs ∧ startsValue c = true)
    (hbefore : ∀ a behind, behind.length ≤ (before a behind).length)
    (hitem : ∀ b ∈ a :: as, ∀ c behind, c = ',' ∨ c = close →
      item (before b (c :: behind)) = some (value b, c :: behind)) :
    items? item close (before a (furtherBefore before as (close :: rest))) =
      some ((a :: as).map value, rest) := by
  have hlength : as.length < (before a (furtherBefore before as (close :: rest))).length := by
    have hfurther := length_furtherBefore (fun b (_ : b ∈ as) => hbefore b) (close :: rest)
    have hfirst := hbefore a (furtherBefore before as (close :: rest))
    rw [List.length_cons] at hfurther
    omega
  have hread : sequence? item close _ (before a (furtherBefore before as (close :: rest))) =
      some ((a :: as).map value, rest) := sequence?_before hclose hlength hitem
  obtain ⟨c, cs, hcs, hc⟩ := hstart (furtherBefore before as (close :: rest))
  have hne : c ≠ close := by
    rcases hclose with rfl | rfl <;> exact ne_of_startsValue hc rfl
  rw [hcs] at hread ⊢
  rw [items?, dropBlanks_of_startsValue hc]
  exact (if_neg hne).trans hread

end Sequences

/-! ### Values -/

/-- What holds of a value if it holds of the values inside holds of all values. -/
theorem induction {motive : Json → Prop} (null : motive null) (bool : ∀ b, motive (bool b))
    (int : ∀ n, motive (int n)) (double : ∀ x, motive (double x))
    (string : ∀ s, motive (string s))
    (array : ∀ items, (∀ j ∈ items, motive j) → motive (array items))
    (object : ∀ members, (∀ m ∈ members, motive m.2) → motive (object members))
    (unreadable : motive unreadable) : ∀ j, motive j
  | .null => null
  | .bool b => bool b
  | .int n => int n
  | .double x => double x
  | .string s => string s
  | .array items =>
    array items fun j _ =>
      induction null bool int double string array object unreadable j
  | .object members =>
    object members fun m _ =>
      induction null bool int double string array object unreadable m.2
  | .unreadable => unreadable
termination_by j => sizeOf j
decreasing_by
  · rename_i hj
    have := List.sizeOf_lt_of_mem hj
    simp only [Json.array.sizeOf_spec]
    omega
  · rename_i hm
    have := List.sizeOf_lt_of_mem hm
    have : sizeOf m.2 < sizeOf m := by
      cases m
      simp
    simp only [Json.object.sizeOf_spec]
    omega

/-- The text of a member in front of other text. -/
def memberBefore (m : String × Json) (rest : List Char) : List Char :=
  stringChars m.1 ++ ':' :: charsBefore m.2 rest

theorem exists_cons_memberBefore (m : String × Json) (rest : List Char) :
    ∃ c cs, memberBefore m rest = c :: cs ∧ startsValue c = true :=
  ⟨_, _, rfl, rfl⟩

theorem length_le_memberBefore {m : String × Json}
    (h : ∀ rest, rest.length ≤ (m.2.charsBefore rest).length) (rest : List Char) :
    rest.length ≤ (memberBefore m rest).length := by
  have hvalue := h rest
  rw [memberBefore, List.length_append, List.length_cons]
  omega

theorem furtherItemsBefore_eq (items : List Json) (rest : List Char) :
    furtherItemsBefore items rest = furtherBefore charsBefore items rest := by
  induction items with
  | nil => rw [furtherItemsBefore, furtherBefore]
  | cons j items ih => rw [furtherItemsBefore, furtherBefore, ih]

theorem furtherMembersBefore_eq (members : List (String × Json)) (rest : List Char) :
    furtherMembersBefore members rest = furtherBefore memberBefore members rest := by
  induction members with
  | nil => rw [furtherMembersBefore, furtherBefore]
  | cons m members ih => rw [furtherMembersBefore, furtherBefore, ih, memberBefore]

theorem nesting_ofWhole (negative : Bool) (magnitude : Nat) :
    (ofWhole negative magnitude).nesting = 0 := by
  have hdecimal : ∀ d, (ofDecimal d).nesting = 0 := by
    intro d
    rw [ofDecimal]
    split <;> rfl
  rw [ofWhole]
  split_ifs
  · rfl
  · exact hdecimal _
  · rfl
  · exact hdecimal _

/-- A text says nothing deeper than what was written. -/
theorem nesting_asWritten (j : Json) : j.asWritten.nesting = j.nesting := by
  induction j using induction with
  | null | bool b | string s => simp
  | unreadable => rw [asWritten]; rfl
  | int n =>
    rw [asWritten, nesting_ofWhole]
    rfl
  | double x =>
    rw [asWritten]
    split <;> rfl
  | array items ih =>
    have hitems : nestingOfItems (items.map asWritten) = nestingOfItems items := by
      induction items with
      | nil => rfl
      | cons j items hrest =>
        rw [List.map_cons, nestingOfItems, nestingOfItems, ih j List.mem_cons_self,
          hrest fun k hk => ih k (List.mem_cons_of_mem j hk)]
    rw [asWritten_array, nesting, nesting, hitems]
  | object members ih =>
    have hmembers : nestingOfMembers (members.map fun m => (m.1, m.2.asWritten)) =
        nestingOfMembers members := by
      induction members with
      | nil => rfl
      | cons m members hrest =>
        rw [List.map_cons, nestingOfMembers, nestingOfMembers, ih m List.mem_cons_self,
          hrest fun n hn => ih n (List.mem_cons_of_mem m hn)]
    rw [asWritten_object, nesting, nesting, hmembers]

/-- A text is not shorter than what stands behind it. -/
theorem length_le_charsBefore (j : Json) (rest : List Char) :
    rest.length ≤ (j.charsBefore rest).length := by
  induction j using induction generalizing rest with
  | null | unreadable =>
    rw [charsBefore]
    simp only [List.length_cons]
    omega
  | bool b =>
    cases b
    all_goals
      rw [charsBefore]
      simp only [List.length_cons]
      omega
  | int n | double x | string s =>
    rw [charsBefore, List.length_append]
    exact Nat.le_add_left _ _
  | array items ih =>
    rw [charsBefore]
    cases items with
    | nil =>
      rw [itemsBefore, List.length_cons, List.length_cons]
      omega
    | cons j items =>
      have hfirst := ih j List.mem_cons_self (furtherItemsBefore items (']' :: rest))
      have hothers := length_furtherBefore
        (fun k hk => ih k (List.mem_cons_of_mem j hk)) (']' :: rest)
      rw [← furtherItemsBefore_eq, List.length_cons] at hothers
      rw [itemsBefore, List.length_cons]
      omega
  | object members ih =>
    rw [charsBefore]
    cases members with
    | nil =>
      rw [membersBefore, List.length_cons, List.length_cons]
      omega
    | cons m members =>
      have hfirst := length_le_memberBefore (ih m List.mem_cons_self)
        (furtherMembersBefore members ('}' :: rest))
      have hothers := length_furtherBefore
        (fun n hn => length_le_memberBefore (ih n (List.mem_cons_of_mem m hn))) ('}' :: rest)
      rw [← furtherMembersBefore_eq, List.length_cons] at hothers
      rw [memberBefore] at hfirst
      rw [membersBefore, List.length_cons]
      omega

theorem nesting_le_of_mem_items {items : List Json} {j : Json} (h : j ∈ items) :
    j.nesting ≤ nestingOfItems items := by
  induction items with
  | nil => cases h
  | cons i items ih =>
    rw [nestingOfItems]
    rcases List.mem_cons.mp h with rfl | h
    · exact Nat.le_max_left _ _
    · exact Nat.le_trans (ih h) (Nat.le_max_right _ _)

theorem nesting_le_of_mem_members {members : List (String × Json)} {m : String × Json}
    (h : m ∈ members) : m.2.nesting ≤ nestingOfMembers members := by
  induction members with
  | nil => cases h
  | cons n members ih =>
    rw [nestingOfMembers]
    rcases List.mem_cons.mp h with rfl | h
    · exact Nat.le_max_left _ _
    · exact Nat.le_trans (ih h) (Nat.le_max_right _ _)

/-- A value does not begin with a blank or the end of a sequence. -/
theorem exists_cons_charsBefore (j : Json) (rest : List Char) :
    ∃ c cs, j.charsBefore rest = c :: cs ∧ startsValue c = true := by
  have hnumber : ∀ {cs : List Char} {r : Json × List Char}, number? (cs ++ []) = some r →
      ∃ c cs', cs ++ rest = c :: cs' ∧ startsValue c = true := by
    intro cs r hread
    rw [List.append_nil] at hread
    obtain ⟨c, cs', rfl, hc⟩ := exists_cons_of_number? hread
    exact ⟨c, cs' ++ rest, rfl, by simp only [startsValue, hc, Bool.true_or]⟩
  cases j with
  | null | unreadable | string s | array items | object members =>
    rw [charsBefore]
    exact ⟨_, _, rfl, rfl⟩
  | bool b => cases b <;> exact ⟨_, _, rfl, rfl⟩
  | int n =>
    rw [charsBefore]
    exact hnumber (number?_intChars n (stopsBefore_nil _))
  | double x =>
    rw [charsBefore, doubleChars]
    split
    case isTrue hx => exact hnumber (number?_floatText hx (stopsBefore_nil _))
    case isFalse => exact ⟨_, _, rfl, rfl⟩

theorem ofMembers_map_some (members : List (String × Json)) :
    ofMembers (members.map fun m => (some m.1, m.2)) = object members := by
  refine ofMembers_of_mapM ?_
  induction members with
  | nil => rfl
  | cons m members ih =>
    rw [List.map_cons, List.mapM_cons, ih]
    rfl

theorem stopsBefore_of_separator {close c : Char} (hclose : close = ']' ∨ close = '}')
    (hc : c = ',' ∨ c = close) (rest : List Char) : StopsBefore continuesNumber (c :: rest) := by
  refine stopsBefore_cons.mpr ?_
  rcases hc with rfl | rfl
  · rfl
  · rcases hclose with rfl | rfl <;> rfl

/-- The value in front of a text that does not go on with a number reads back. -/
theorem value?_charsBefore (j : Json) {depth : Nat} {rest : List Char}
    (hdepth : j.nesting ≤ depth) (hrest : StopsBefore continuesNumber rest) :
    value? depth (j.charsBefore rest) = some (j.asWritten, rest) := by
  induction j using induction generalizing depth rest with
  | null => 
    rw [charsBefore, asWritten_null]
    exact value?_null rest depth
  | unreadable => 
    rw [charsBefore, asWritten]
    exact value?_null rest depth
  | bool b => 
    rw [asWritten_bool]
    cases b with
    | true => exact value?_true rest depth
    | false => exact value?_false rest depth
  | int n =>
    rw [charsBefore, asWritten]
    exact value?_of_number? (number?_intChars n hrest) depth
  | double x => 
    rw [charsBefore, asWritten, doubleChars]
    split
    case isTrue hx => exact value?_of_number? (number?_floatText hx hrest) depth
    case isFalse => exact value?_null rest depth
  | string s => 
    rw [charsBefore, asWritten_string]
    exact value?_string s rest depth
  | array items ih => 
    rw [nesting] at hdepth
    obtain ⟨depth, rfl⟩ := Nat.exists_eq_succ_of_ne_zero (Nat.ne_of_gt (Nat.zero_lt_of_lt hdepth))
    have hread : items? (value? depth) ']' (itemsBefore items (']' :: rest)) =
        some (items.map asWritten, rest) := by
      cases items with
      | nil => 
        rw [itemsBefore]
        rfl
      | cons j items => 
        rw [itemsBefore, furtherItemsBefore_eq]
        refine items?_before (.inl rfl) (exists_cons_charsBefore j) length_le_charsBefore ?_
        intro k hk c behind hc
        exact ih k hk (Nat.le_trans (nesting_le_of_mem_items hk) (Nat.le_of_succ_le_succ hdepth))
          (stopsBefore_of_separator (.inl rfl) hc behind)
    rw [charsBefore, asWritten_array]
    show (items? (value? depth) ']' _).map _ = _
    rw [hread]
    rfl
  | object members ih =>
    rw [nesting] at hdepth
    obtain ⟨depth, rfl⟩ := Nat.exists_eq_succ_of_ne_zero (Nat.ne_of_gt (Nat.zero_lt_of_lt hdepth))
    have hread : items? (member? (value? depth)) '}' (membersBefore members ('}' :: rest)) =
        some (members.map fun m => (some m.1, m.2.asWritten), rest) := by
      cases members with
      | nil =>
        rw [membersBefore]
        rfl
      | cons m members =>
        rw [membersBefore, furtherMembersBefore_eq]
        refine items?_before (.inr rfl) (exists_cons_memberBefore m)
          (fun n => length_le_memberBefore (length_le_charsBefore n.2)) ?_
        intro n hn c behind hc
        have hvalue : value? depth (n.2.charsBefore (c :: behind)) =
            some (n.2.asWritten, c :: behind) :=
          ih n hn (Nat.le_trans (nesting_le_of_mem_members hn) (Nat.le_of_succ_le_succ hdepth))
            (stopsBefore_of_separator (.inr rfl) hc behind)
        rw [memberBefore, member?, name?_stringChars]
        show (value? depth _).bind _ = _
        rw [hvalue]
        rfl
    rw [charsBefore, asWritten_object, ← ofMembers_map_some]
    show (items? (member? (value? depth)) '}' _).map _ = _
    rw [hread, List.map_map]
    rfl

/-- **The text of a value reads as the value that it says**, unless arrays and objects stand too
deep inside each other. -/
theorem parse?_text {j : Json} (h : j.nesting ≤ maxNesting) : parse? j.text = some j.asWritten := by
  have hread := value?_charsBefore j h (stopsBefore_nil _)
  rw [parse?, text, String.toList_ofList, hread]
  rfl

end Json

end Stepwise
