import Mathlib
import Stepwise.Json.Scan
import Stepwise.Proofs.Digits

/-!
# Numbers in JSON read back

The text of a finite double is read as that double, and the text of an integer as that integer if it
fits into 64 bits, in front of any text that does not go on with the number.

A double always has a fraction or an exponent, by which it is told from an integer. What is read
from its text need not be the decimal that was written, as zeros have been put at one of its ends.
So `Json.Writes` asks for a decimal with the same nearest double, and for few enough digits: beyond
`Json.maxDigits` the reader looks at the digits no more.

## Main definitions

* `Json.continuesNumber` — the characters that must not follow a number
* `Json.Writes` — the texts that are read as a decimal

## Main results

* `Json.number?_floatText` — the text of a finite double reads back
* `Json.number?_intChars` — the text of an integer reads as what its size makes of it
-/

namespace Stepwise

namespace Json

open Decimal

/-! ### Numbers in JSON -/

/-- A number is determined by its sign and the double that is nearest to its absolute value. -/
theorem ofDecimal_congr {negative : Bool} {significand significand' : Nat}
    {exponent exponent' : Int}
    (h : nearestBits significand exponent = nearestBits significand' exponent') :
    ofDecimal ⟨negative, significand, exponent⟩ =
      ofDecimal ⟨negative, significand', exponent'⟩ := by
  have hdouble : toFloat ⟨negative, significand, exponent⟩ =
      toFloat ⟨negative, significand', exponent'⟩ := congrArg (Double.ofSignBits negative) h
  rw [ofDecimal, ofDecimal, hdouble]

theorem exists_zeros (cs : List Char) :
    ∃ n, cs = (cs.reverse.dropWhile (· == '0')).reverse ++ List.replicate n '0' := by
  have hzeros : cs.reverse.takeWhile (· == '0') =
      List.replicate (cs.reverse.takeWhile (· == '0')).length '0' :=
    List.eq_replicate_of_mem fun c hc => beq_iff_eq.mp (List.mem_takeWhile_imp (p := (· == '0')) hc)
  refine ⟨(cs.reverse.takeWhile (· == '0')).length, ?_⟩
  rw [← List.reverse_replicate, ← hzeros, ← List.reverse_append, List.takeWhile_append_dropWhile,
    List.reverse_reverse]

/-- If all digits are read one by one, the decimal has the value that is written. -/
theorem ofDecimal_decimal (negative : Bool) {whole fraction : List Char} (exponent : Int)
    (hdigits : ∀ c ∈ whole ++ fraction, c.isDigit = true)
    (hsmall : ofDigits (whole ++ fraction) < 10 ^ maxDigits) :
    ofDecimal (decimal negative whole fraction exponent) =
      ofDecimal ⟨negative, ofDigits (whole ++ fraction), exponent - fraction.length⟩ := by
  obtain ⟨n, hfraction⟩ := exists_zeros fraction
  generalize hkept : (fraction.reverse.dropWhile (· == '0')).reverse = kept at hfraction
  have hvalue : ofDigits (whole ++ fraction) = 10 ^ n * ofDigits (whole ++ kept) := by
    rw [hfraction, ← List.append_assoc, ofDigits_append_zeros]
  have hlength : ((whole ++ kept).dropWhile (· == '0')).length ≤ maxDigits := by
    refine length_le_of_ofDigits_lt (fun c hc => ?_) (fun hhead => ?_) ?_
    · refine hdigits c ?_
      rw [hfraction, ← List.append_assoc]
      exact List.mem_append_left _ ((List.dropWhile_sublist _).subset hc)
    · exact absurd (List.head?_dropWhile_not (· == '0') (whole ++ kept)) (by simp [hhead])
    · rw [ofDigits_dropWhile_zero]
      refine Nat.lt_of_le_of_lt ?_ hsmall
      rw [hvalue]
      exact Nat.le_mul_of_pos_left _ (Nat.pow_pos (by decide))
  rw [decimal]
  simp only [hkept, if_pos hlength]
  refine ofDecimal_congr ?_
  rw [ofDigits_dropWhile_zero, hvalue, nearestBits_ten_pow_mul, hfraction, List.length_append,
    List.length_replicate]
  exact congrArg (nearestBits _) (by omega)

/-- What a number can go on with. -/
def continuesNumber (c : Char) : Bool := c.isDigit || c == '.' || c == 'e' || c == 'E'

theorem isDigit_eq_false_of_not_continues {c : Char} (h : continuesNumber c = false) :
    c.isDigit = false := by
  simp only [continuesNumber, Bool.or_eq_false_iff] at h
  exact h.1.1.1

theorem stopsBefore_isDigit {rest : List Char} (h : StopsBefore continuesNumber rest) :
    StopsBefore Char.isDigit rest :=
  fun c hc => isDigit_eq_false_of_not_continues (h c hc)

/-- The whole part of a number: digits, with a zero in front only if it is the only one. -/
structure IsWhole (cs : List Char) : Prop where
  isDigits : IsDigits cs
  canonical : cs.head? = some '0' → cs = ['0']

theorem isWhole_digits (n : Nat) : IsWhole (digits n) where
  isDigits := isDigits_digits n
  canonical := fun hhead => by
    by_cases hn : n = 0
    · rw [hn]
      rfl
    · exact absurd hhead (head?_digits_ne hn)

theorem IsWhole.append {cs cs' : List Char} (h : IsWhole cs) (hzero : cs.head? ≠ some '0')
    (hdigits : ∀ c ∈ cs', c.isDigit = true) : IsWhole (cs ++ cs') where
  isDigits := h.isDigits.append hdigits
  canonical := fun hhead => by
    rw [List.head?_append_of_ne_nil _ h.isDigits.1] at hhead
    exact absurd hhead hzero

theorem IsWhole.wholeDigits? {cs rest : List Char} (h : IsWhole cs)
    (hrest : StopsBefore Char.isDigit rest) : wholeDigits? (cs ++ rest) = some (cs, rest) := by
  obtain ⟨htake, hdrop⟩ := takeWhile_append_stop h.isDigits.2 hrest
  obtain ⟨c, cs, rfl, -⟩ := h.isDigits.exists_cons
  by_cases hc : c = '0'
  · subst hc
    obtain ⟨rfl⟩ : cs = [] := List.cons_inj_right _ |>.mp (h.canonical rfl)
    have hany : rest.head?.any Char.isDigit = false := by
      cases rest with
      | nil => rfl
      | cons d rest => exact stopsBefore_cons.mp hrest
    rw [List.singleton_append, Json.wholeDigits?, hany]
    rfl
  · rw [Json.wholeDigits?]
    · simp only [Numeral.scanDigits, htake, hdrop]
      rfl
    · intro rest' heq
      exact hc (List.cons.inj heq).1

/-- A fraction with its point, or nothing. -/
def fractionText (fraction : List Char) : List Char :=
  if fraction = [] then [] else '.' :: fraction

/-- An exponent with its mark and its sign, or nothing. -/
def exponentText : Option Int → List Char
  | none => []
  | some e => 'e' :: (if e < 0 then '-' else '+') :: digits e.natAbs

theorem scanExponent_exponentText (exponent : Option Int) {rest : List Char}
    (hrest : StopsBefore continuesNumber rest) :
    Numeral.scanExponent (exponentText exponent ++ rest) = some (exponent.getD 0, rest) := by
  cases exponent with
  | none =>
    cases rest with
    | nil => rfl
    | cons c rest =>
      have hc := stopsBefore_cons.mp hrest
      simp only [continuesNumber, Bool.or_eq_false_iff, beq_eq_false_iff_ne] at hc
      rw [exponentText, List.nil_append, Numeral.scanExponent,
        if_neg (not_or_intro hc.1.2 hc.2)]
      rfl
  | some e =>
    obtain ⟨htake, hdrop⟩ :=
      takeWhile_append_stop (isDigits_digits e.natAbs).2 (stopsBefore_isDigit hrest)
    have hne := (isDigits_digits e.natAbs).1
    rw [exponentText, List.cons_append, List.cons_append, Numeral.scanExponent, if_pos (.inl rfl)]
    by_cases he : e < 0
    · have hmagnitude : -(e.natAbs : Int) = e := by omega
      simp only [if_pos he, Numeral.scanSign, Numeral.scanDigits, htake, hdrop, if_neg hne,
        ofDigits_digits]
      exact congrArg (fun m => some (m, rest)) hmagnitude
    · have hmagnitude : (e.natAbs : Int) = e := by omega
      simp only [if_neg he, Numeral.scanSign, Numeral.scanDigits, htake, hdrop, if_neg hne,
        ofDigits_digits]
      exact congrArg (fun m => some (m, rest)) hmagnitude

theorem fractionDigits?_fractionText {fraction rest : List Char}
    (hdigits : ∀ c ∈ fraction, c.isDigit = true) (hstop : StopsBefore Char.isDigit rest)
    (hpoint : rest.head? ≠ some '.') :
    fractionDigits? (fractionText fraction ++ rest) = some (fraction, rest) := by
  by_cases hnil : fraction = []
  · rw [fractionText, if_pos hnil, List.nil_append, fractionDigits?]
    · rw [hnil]
    · rintro rest' rfl
      exact hpoint rfl
  · obtain ⟨htake, hdrop⟩ := takeWhile_append_stop hdigits hstop
    rw [fractionText, if_neg hnil, List.cons_append, fractionDigits?]
    simp only [Numeral.scanDigits, htake, hdrop, if_neg hnil]

/-- Texts of a decimal, behind its sign, that are read as a double: a whole part that goes on with a
fraction, an exponent or both, with no more digits than are read one by one. The parts may be those
of another decimal, if only the same double is nearest to both. -/
inductive Writes (significand : Nat) (exponent : Int) : List Char → Prop
  | parts (whole fraction : List Char) (mark : Option Int) (isWhole : IsWhole whole)
    (isDigits : ∀ c ∈ fraction, c.isDigit = true) (goesOn : fraction ≠ [] ∨ mark.isSome)
    (few : ofDigits (whole ++ fraction) < 10 ^ maxDigits)
    (value : nearestBits (ofDigits (whole ++ fraction)) (mark.getD 0 - fraction.length) =
      nearestBits significand exponent) :
    Writes significand exponent (whole ++ (fractionText fraction ++ exponentText mark))

variable {significand : Nat} {exponent : Int} {cs rest : List Char}

theorem Writes.exists_cons (h : Writes significand exponent cs) :
    ∃ c cs', cs = c :: cs' ∧ c.isDigit = true := by
  obtain ⟨whole, fraction, mark, hwhole, -⟩ := h
  obtain ⟨c, cs', rfl, hc⟩ := hwhole.isDigits.exists_cons
  exact ⟨c, _, rfl, hc⟩

/-- What is written with a fraction or an exponent is read as the decimal. -/
theorem Writes.magnitude? (h : Writes significand exponent cs) (negative : Bool)
    (hrest : StopsBefore continuesNumber rest) :
    magnitude? negative (cs ++ rest) =
      some (ofDecimal ⟨negative, significand, exponent⟩, rest) := by
  obtain ⟨whole, fraction, mark, hwhole, hfraction, hgoes, hfew, hvalue⟩ := h
  have hbehind : StopsBefore (fun c => c.isDigit || c == '.') (exponentText mark ++ rest) := by
    cases mark with
    | none => exact fun c hc => (Bool.or_eq_false_iff.mp (Bool.or_eq_false_iff.mp (hrest c hc)).1).1
    | some e => exact stopsBefore_cons.mpr rfl
  have hdigit : StopsBefore Char.isDigit (exponentText mark ++ rest) :=
    fun c hc => (Bool.or_eq_false_iff.mp (hbehind c hc)).1
  have hpoint : (exponentText mark ++ rest).head? ≠ some '.' :=
    fun heq => absurd (hbehind '.' heq) (by decide)
  have hstop : StopsBefore Char.isDigit (fractionText fraction ++ (exponentText mark ++ rest)) := by
    unfold fractionText
    split
    · exact hdigit
    · exact stopsBefore_cons.mpr rfl
  have hgoes : goesOn (fractionText fraction ++ (exponentText mark ++ rest)) = true := by
    unfold fractionText
    split
    case isTrue hnil =>
      obtain ⟨e, rfl⟩ := Option.isSome_iff_exists.mp (hgoes.resolve_left (not_not_intro hnil))
      rfl
    case isFalse => rfl
  rw [List.append_assoc, List.append_assoc]
  simp only [Json.magnitude?, hwhole.wholeDigits? hstop, bind, Option.bind_some, hgoes, if_true,
    fractionDigits?_fractionText hfraction hdigit hpoint, scanExponent_exponentText mark hrest]
  rw [ofDecimal_decimal negative _ (List.forall_mem_append.mpr ⟨hwhole.isDigits.2, hfraction⟩) hfew,
    ofDecimal_congr hvalue]

theorem Writes.point {whole fraction : List Char} (hwhole : IsWhole whole)
    (hfraction : IsDigits fraction) (hfew : ofDigits (whole ++ fraction) < 10 ^ maxDigits)
    (hvalue : nearestBits (ofDigits (whole ++ fraction)) (-fraction.length) =
      nearestBits significand exponent) :
    Writes significand exponent (whole ++ '.' :: fraction) := by
  have hmark : (Option.none : Option Int).getD 0 - fraction.length = -fraction.length :=
    Int.zero_sub _
  have hparts := Writes.parts whole fraction none hwhole hfraction.2 (.inl hfraction.1) hfew
    (hmark ▸ hvalue)
  rwa [fractionText, if_neg hfraction.1, exponentText, List.append_nil] at hparts

/-- With the point where it belongs, a decimal of few places always has a fraction. -/
theorem writes_positionalText (hzero : significand = 0 → exponent = 0)
    (hsmall : significand < 10 ^ maxDigits)
    (hplaces : ((digits significand).length : Int) + exponent ≤ 16) :
    Writes significand exponent (positionalText true (digits significand) exponent) := by
  have hwhole := isWhole_digits significand
  have hdigits := hwhole.isDigits
  have hlength : 0 < (digits significand).length := List.length_pos_of_ne_nil hdigits.1
  unfold positionalText
  simp only [if_true]
  split
  case isTrue hexponent =>
    have hwhole' : IsWhole (digits significand ++ List.replicate exponent.toNat '0') := by
      by_cases hsignificand : significand = 0
      · rw [hzero hsignificand, Int.toNat_zero, List.replicate_zero, List.append_nil]
        exact hwhole
      · exact hwhole.append (head?_digits_ne hsignificand) isDigit_of_mem_zeros
    have hvalue : ofDigits (digits significand ++ List.replicate exponent.toNat '0' ++ ['0']) =
        10 ^ (exponent.toNat + 1) * significand := by
      rw [List.append_assoc, ← List.replicate_one, ← List.replicate_add, ofDigits_append_zeros,
        ofDigits_digits]
    have hlt : 10 ^ (exponent.toNat + 1) * significand < 10 ^ maxDigits := by
      have hcount : significand < 10 ^ (digits significand).length :=
        (Nat.length_toDigits_le_iff (by decide) hlength).mp (Nat.le_refl _)
      have hroom : 17 ≤ maxDigits := by decide
      calc 10 ^ (exponent.toNat + 1) * significand
          < 10 ^ (exponent.toNat + 1) * 10 ^ (digits significand).length :=
            (Nat.mul_lt_mul_left (Nat.pow_pos (by decide))).mpr hcount
        _ = 10 ^ (exponent.toNat + 1 + (digits significand).length) := (Nat.pow_add ..).symm
        _ ≤ 10 ^ maxDigits := Nat.pow_le_pow_right (by decide) (by omega)
    refine Writes.point hwhole' ⟨List.cons_ne_nil '0' [], List.forall_mem_singleton.mpr rfl⟩
      (hvalue ▸ hlt) ?_
    rw [hvalue, nearestBits_ten_pow_mul, List.length_singleton]
    exact congrArg (nearestBits significand) (by omega)
  case isFalse hexponent =>
    have hsignificand : significand ≠ 0 := fun h => hexponent (hzero h ▸ Int.le_refl 0)
    split
    case isTrue hpoint =>
      generalize hplace : (((digits significand).length : Int) + exponent).toNat = place
      have htake : IsWhole ((digits significand).take place) := by
        refine ⟨⟨?_, fun c hc => hdigits.2 c (List.mem_of_mem_take hc)⟩, fun hhead => ?_⟩
        · refine List.ne_nil_of_length_pos ?_
          rw [List.length_take]
          omega
        · rw [List.head?_take, if_neg (by omega)] at hhead
          exact absurd hhead (head?_digits_ne hsignificand)
      have hdrop : IsDigits ((digits significand).drop place) := by
        refine ⟨List.ne_nil_of_length_pos ?_, fun c hc => hdigits.2 c (List.mem_of_mem_drop hc)⟩
        rw [List.length_drop]
        omega
      refine Writes.point htake hdrop ?_ ?_
      · rwa [List.take_append_drop, ofDigits_digits]
      · rw [List.take_append_drop, ofDigits_digits, List.length_drop]
        exact congrArg (nearestBits significand) (by omega)
    case isFalse hpoint =>
      generalize hplace : (-(((digits significand).length : Int) + exponent)).toNat = place
      have hvalue : ofDigits (digits 0 ++ (List.replicate place '0' ++ digits significand)) =
          significand :=
        (ofDigits_zero_cons _).trans ((ofDigits_zeros_append _ _).trans (ofDigits_digits _))
      have hfraction : IsDigits (List.replicate place '0' ++ digits significand) :=
        ⟨List.append_ne_nil_of_right_ne_nil _ hdigits.1,
          List.forall_mem_append.mpr ⟨isDigit_of_mem_zeros, hdigits.2⟩⟩
      refine Writes.point (isWhole_digits 0) hfraction (by rwa [hvalue]) ?_
      rw [hvalue, List.length_append, List.length_replicate]
      exact congrArg (nearestBits significand) (by omega)

/-- With its point after the first digit, a decimal has an exponent. -/
theorem writes_scientificText (hsignificand : significand ≠ 0)
    (hsmall : significand < 10 ^ maxDigits) :
    Writes significand exponent (scientificText (digits significand) exponent) := by
  have hvalue : ofDigits (digits significand) = significand := ofDigits_digits significand
  have hdigits := isDigits_digits significand
  have hhead := head?_digits_ne hsignificand
  unfold scientificText
  simp only
  generalize digits significand = ds at *
  obtain ⟨d, ds, rfl, hd⟩ := hdigits.exists_cons
  have hwhole : IsWhole [d] :=
    ⟨⟨List.cons_ne_nil _ _, List.forall_mem_singleton.mpr hd⟩, fun heq => absurd heq hhead⟩
  have hplaces : (((d :: ds).length : Int) - 1 + exponent) - ds.length = exponent := by
    rw [List.length_cons]
    omega
  have hparts : Writes significand exponent _ :=
    .parts [d] ds (some (((d :: ds).length : Int) - 1 + exponent)) hwhole
      (fun c hc => hdigits.2 c (List.mem_cons_of_mem _ hc)) (.inr rfl)
      (by rwa [List.singleton_append, hvalue])
      (by rw [List.singleton_append, hvalue, Option.getD_some, hplaces])
  cases ds with
  | nil => exact hparts
  | cons d' ds => exact hparts

/-! ### Doubles -/

theorem number?_minus (cs : List Char) : number? ('-' :: cs) = magnitude? true cs := rfl

theorem number?_of_isDigit {c : Char} (hc : c.isDigit = true) (cs : List Char) :
    number? (c :: cs) = magnitude? false (c :: cs) := by
  rw [number?]
  rintro rest heq
  rw [(List.cons.inj heq).1] at hc
  cases hc

/-- A number is read with its sign. -/
theorem number?_sign {negative : Bool} {j : Json}
    (hcs : ∃ c cs', cs = c :: cs' ∧ c.isDigit = true)
    (h : magnitude? negative (cs ++ rest) = some (j, rest)) :
    number? ((if negative then '-' :: cs else cs) ++ rest) = some (j, rest) := by
  cases negative with
  | true => exact (number?_minus _).trans h
  | false =>
    obtain ⟨c, cs, rfl, hc⟩ := hcs
    exact (number?_of_isDigit hc _).trans h

/-- The text of a decimal of few digits is read as the double nearest to it. -/
theorem number?_text {d : Decimal} (hzero : d.significand = 0 → d.exponent = 0)
    (hsmall : d.significand < 10 ^ maxDigits) (hrest : StopsBefore continuesNumber rest) :
    number? (Decimal.text numberLayout d ++ rest) = some (ofDecimal d, rest) := by
  obtain ⟨negative, significand, exponent⟩ := d
  have hwrites : Writes significand exponent
      (if numberLayout.positional (((digits significand).length : Int) - 1 + exponent) then
        positionalText numberLayout.fraction (digits significand) exponent
      else scientificText (digits significand) exponent) := by
    split
    case isTrue hplaces =>
      simp only [numberLayout, Bool.and_eq_true, decide_eq_true_eq] at hplaces
      exact writes_positionalText hzero hsmall (by omega)
    case isFalse hplaces =>
      refine writes_scientificText (fun hsignificand => hplaces ?_) hsmall
      rw [hsignificand, show exponent = 0 from hzero hsignificand]
      decide
  exact number?_sign hwrites.exists_cons (hwrites.magnitude? negative hrest)

/-- **The text of a finite double reads back.** -/
theorem number?_floatText {x : Float} (hx : x.isFinite = true)
    (hrest : StopsBefore continuesNumber rest) :
    number? (floatText numberLayout x ++ rest) = some (double x, rest) := by
  have hself := Double.ofSignBits_magnitudeBits x
  have hfinite := Double.isFinite_iff.mp hx
  have hread : ∀ d : Decimal, d.toFloat = x → ofDecimal d = double x := by
    rintro d rfl
    rw [ofDecimal, if_pos hx]
  rw [floatText, ofFloat]
  simp only
  split
  case isTrue hzero =>
    rw [hzero] at hself
    rw [number?_text (fun _ => rfl) (Nat.pow_pos (by decide)) hrest]
    exact congrArg (fun j => some (j, rest)) (hread _ hself)
  case isFalse hpos =>
    have hbits := nearestBits_shortestOfBits numberLayout.tie hpos hfinite
    rw [number?_text ?_ (shortestOfBits_lt numberLayout.tie hpos hfinite) hrest]
    · refine congrArg (fun j => some (j, rest)) (hread _ ?_)
      rw [toFloat, hbits, hself]
    · intro hzero
      rw [show (shortestOfBits _ _).1 = 0 from hzero] at hbits
      exact absurd hbits.symm hpos

/-! ### Integers -/

/-- An integer reads as what its size makes of it. -/
theorem number?_intChars (n : Int) (hrest : StopsBefore continuesNumber rest) :
    number? (intChars n ++ rest) = some (ofWhole (n < 0) n.natAbs, rest) := by
  have hwhole := isWhole_digits n.natAbs
  have hgoes : goesOn rest = false := by
    cases rest with
    | nil => rfl
    | cons c rest =>
      have hc := stopsBefore_cons.mp hrest
      simp only [continuesNumber, Bool.or_eq_false_iff] at hc
      simp only [goesOn, hc.1.1.2, hc.1.2, hc.2, Bool.or_self]
  have hread : magnitude? (n < 0) (digits n.natAbs ++ rest) =
      some (ofWhole (n < 0) n.natAbs, rest) := by
    simp only [magnitude?, hwhole.wholeDigits? (stopsBefore_isDigit hrest), bind, Option.bind_some,
      hgoes, Bool.false_eq_true, if_false, ofDigits_digits]
  have hsign := number?_sign hwhole.isDigits.exists_cons hread
  simp only [decide_eq_true_eq] at hsign
  exact hsign

end Json

end Stepwise
