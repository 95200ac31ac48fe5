import Mathlib
import Stepwise.Decimal.Numeral
import Stepwise.Proofs.Lexemes
import Stepwise.Proofs.Rounding

/-!
# Numbers as numerals

The text of a finite number that is not negative is a numeral of the language, and it is read as
that number again. Such a text has no sign and no exponent: it is a run of digits, with or without a
point and another run behind it.

What is read from it need not be the decimal from which the text was made, as zeros have been put at
one of its ends. It has the same value, and that is enough.

## Main definitions

* `Double.IsPlain` — the numbers that have such texts

## Main results

* `exists_plain_numberText` — the text of such a number is plain and reads back
-/

namespace Stepwise

/-! ### Digits -/

namespace Decimal

theorem ofDigits_eq (cs : List Char) : ofDigits cs = Nat.ofDigitChars 10 cs 0 := rfl

theorem ofDigits_digits (n : Nat) : ofDigits (digits n) = n := Nat.ofDigitChars_ten_toDigits

theorem isDigits_digits (n : Nat) : IsDigits (digits n) :=
  ⟨Nat.toDigits_ne_nil, fun _ hc => Nat.isDigit_of_mem_toDigits (by decide) (by decide) hc⟩

theorem isDigit_of_mem_zeros {n : Nat} : ∀ c ∈ List.replicate n '0', c.isDigit = true := by
  intro c hc
  rw [List.eq_of_mem_replicate hc]
  decide

theorem ofDigits_append_zeros (cs : List Char) (n : Nat) :
    ofDigits (cs ++ List.replicate n '0') = 10 ^ n * ofDigits cs := by
  rw [ofDigits_eq, Nat.ofDigitChars_append, Nat.ofDigitChars_replicate_zero, ofDigits_eq]

theorem ofDigits_zeros_append (n : Nat) (cs : List Char) :
    ofDigits (List.replicate n '0' ++ cs) = ofDigits cs := by
  rw [ofDigits_eq, Nat.ofDigitChars_append, Nat.ofDigitChars_replicate_zero, Nat.mul_zero,
    ofDigits_eq]

end Decimal

/-! ### Plain numerals -/

namespace Numeral

variable {whole fraction text : List Char}

theorem Plain.unsigned? (h : Plain whole fraction text) (negative : Bool) :
    unsigned? negative text =
      some ⟨negative, Decimal.ofDigits (whole ++ fraction), -fraction.length⟩ := by
  cases h with
  | whole h =>
    obtain ⟨htake, hdrop⟩ := takeWhile_append_stop h.2 (stopsBefore_nil _)
    rw [List.append_nil] at htake hdrop
    simp only [Numeral.unsigned?, scanDigits, htake, hdrop, List.append_nil, if_neg h.1,
      scanExponent]
    rfl
  | fraction h hfraction =>
    have hstop : StopsBefore Char.isDigit ('.' :: fraction) := stopsBefore_cons.mpr rfl
    obtain ⟨htake, hdrop⟩ := takeWhile_append_stop h.2 hstop
    obtain ⟨htake', hdrop'⟩ := takeWhile_append_stop hfraction.2 (stopsBefore_nil _)
    rw [List.append_nil] at htake' hdrop'
    have hne := (h.append hfraction.2).1
    simp only [Numeral.unsigned?, scanDigits, htake, hdrop, htake', hdrop', if_neg hne,
      scanExponent, Int.zero_sub]

theorem toLower_of_isDigit {c : Char} (h : c.isDigit = true) : c.toLower = c := by
  have hsmall : c.val.toNat ≤ 57 := by
    simp only [Char.isDigit, Bool.and_eq_true, decide_eq_true_eq] at h
    exact h.2
  rw [Char.toLower, dif_neg]
  rintro ⟨hupper, -⟩
  have hlarge : 65 ≤ c.val.toNat := hupper
  omega

/-- A plain numeral reads as the decimal that it writes. -/
theorem Plain.read? (h : Plain whole fraction text) :
    Numeral.read? text =
      some (Decimal.toFloat ⟨false, Decimal.ofDigits (whole ++ fraction), -fraction.length⟩) := by
  have hunsigned := h.unsigned? false
  obtain ⟨c, cs, rfl, hc⟩ := h.exists_cons
  have hlower := toLower_of_isDigit hc
  have hsign : scanSign (c :: cs) = (false, c :: cs) := by
    unfold scanSign
    split
    case h_1 heq =>
      cases heq
      cases hc
    case h_2 heq =>
      cases heq
      cases hc
    case h_3 => rfl
  have hword : ∀ d ds, d.isDigit = false → (c :: cs).map Char.toLower ≠ d :: ds := by
    intro d ds hd heq
    rw [List.map_cons, hlower, List.cons.injEq] at heq
    exact IsDigits.ne_of_isDigit hc hd heq.1
  simp only [Numeral.read?, hsign]
  rw [if_neg (not_or_intro (hword _ _ (by decide)) (hword _ _ (by decide))),
    if_neg (hword _ _ (by decide)), hunsigned]
  rfl

end Numeral

/-! ### Texts of decimals -/

namespace Decimal

open Numeral

/-- With the point where it belongs, a decimal is a plain numeral of the same value. -/
theorem exists_plain_positionalText {significand : Nat} (h : significand ≠ 0) (exponent : Int) :
    ∃ whole fraction,
      Plain whole fraction (positionalText false (digits significand) exponent) ∧
        nearestBits (ofDigits (whole ++ fraction)) (-fraction.length) =
          nearestBits significand exponent := by
  have hdigits := isDigits_digits significand
  have hlength : 0 < (digits significand).length := List.length_pos_of_ne_nil hdigits.1
  unfold positionalText
  simp only [Bool.false_eq_true, if_false, List.append_nil]
  split
  case isTrue hexponent =>
    refine ⟨_, [], .whole (hdigits.append isDigit_of_mem_zeros), ?_⟩
    have hden : (-exponent).toNat = 0 := by omega
    have hne : 10 ^ exponent.toNat * significand ≠ 0 :=
      Nat.mul_ne_zero (Nat.pos_iff_ne_zero.mp (Nat.pow_pos (by decide))) h
    rw [List.append_nil, ofDigits_append_zeros, ofDigits_digits, nearestBits_eq hne,
      nearestBits_eq h, hden]
    exact congrArg (Double.nearestBits · (powerOfTen 0))
      ((Nat.mul_one _).trans (Nat.mul_comm _ _))
  case isFalse hexponent =>
    split
    case isTrue hpoint =>
      have hinside : (((digits significand).length : Int) + exponent).toNat <
          (digits significand).length := by omega
      refine ⟨_, _, .fraction ⟨?_, fun c hc => hdigits.2 c (List.mem_of_mem_take hc)⟩
        ⟨?_, fun c hc => hdigits.2 c (List.mem_of_mem_drop hc)⟩, ?_⟩
      · refine List.ne_nil_of_length_pos ?_
        rw [List.length_take]
        omega
      · refine List.ne_nil_of_length_pos ?_
        rw [List.length_drop]
        omega
      · rw [List.take_append_drop, ofDigits_digits, List.length_drop]
        exact congrArg (nearestBits significand) (by omega)
    case isFalse hpoint =>
      refine ⟨['0'], _, .fraction ⟨by decide, List.forall_mem_singleton.mpr rfl⟩
        ⟨List.append_ne_nil_of_right_ne_nil _ hdigits.1,
          List.forall_mem_append.mpr ⟨isDigit_of_mem_zeros, hdigits.2⟩⟩, ?_⟩
      have hzeros := ofDigits_zeros_append
        ((-(((digits significand).length : Int) + exponent)).toNat + 1) (digits significand)
      rw [List.replicate_succ, List.cons_append, ofDigits_digits] at hzeros
      rw [List.singleton_append, hzeros, List.length_append, List.length_replicate]
      exact congrArg (nearestBits significand) (by omega)

end Decimal

/-! ### Texts of numbers -/

namespace Double

variable {x : Float}

section

open Float.Model Float.Model.UnpackedFloat

theorem unpackExponent_eq_iff (x : Float) :
    @unpackExponent Format.binary64 x.toModel.toBits.toBitVec = -1#_ ↔
      infinityBits ≤ magnitudeBits x := by
  rw [unpackExponent_def, ← BitVec.toNat_inj, BitVec.extractLsb'_toNat, Nat.shiftRight_eq_div_pow]
  show x.toBits.toNat / 2 ^ 52 % 2 ^ 11 = 2047 ↔ _
  rw [magnitudeBits, infinityBits, signBit]
  omega

theorem unpackMantissa_eq_iff (x : Float) :
    @unpackMantissa Format.binary64 x.toModel.toBits.toBitVec = 0#_ ↔
      magnitudeBits x % hiddenBit = 0 := by
  rw [unpackMantissa_def, ← BitVec.toNat_inj, BitVec.extractLsb'_toNat, Nat.shiftRight_eq_div_pow]
  show x.toBits.toNat / 2 ^ 0 % 2 ^ 52 = 0 ↔ _
  rw [magnitudeBits, hiddenBit, signBit]
  omega

/-- The finite doubles are those with a pattern below that of infinity. -/
theorem isFinite_iff : x.isFinite = true ↔ magnitudeBits x < infinityBits := by
  have hexponent := unpackExponent_eq_iff x
  rw [Float.isFinite, Float.Model.isFinite, Float.Model.unpack, UnpackedFloat.unpack]
  simp only
  split
  case isTrue hfull =>
    refine iff_of_false ?_ (Nat.not_lt.mpr (hexponent.mp hfull))
    split <;> exact Bool.false_ne_true
  case isFalse hfull =>
    refine iff_of_true ?_ (Nat.lt_of_not_le (mt hexponent.mpr hfull))
    split
    · split <;> rfl
    · rfl

/-- What has a pattern above that of infinity is not a number. -/
theorem isNaN_iff : x.isNaN = true ↔ infinityBits < magnitudeBits x := by
  have hexponent := unpackExponent_eq_iff x
  have hmantissa := unpackMantissa_eq_iff x
  have hsign : magnitudeBits x < signBit := Nat.mod_lt _ (by decide)
  rw [signBit] at hsign
  rw [infinityBits] at hexponent ⊢
  rw [hiddenBit] at hmantissa
  rw [Float.isNaN, Float.Model.isNaN, Float.Model.unpack, UnpackedFloat.unpack]
  simp only
  split
  case isTrue hfull =>
    have hlarge := hexponent.mp hfull
    split
    case isTrue hzero =>
      have hfraction := hmantissa.mp hzero
      exact iff_of_false Bool.false_ne_true (by omega)
    case isFalse hzero =>
      have hfraction := mt hmantissa.mpr hzero
      exact iff_of_true rfl (by omega)
  case isFalse hfull =>
    have hsmall := mt hexponent.mpr hfull
    refine iff_of_false ?_ (by omega)
    split
    · split <;> exact Bool.false_ne_true
    · exact Bool.false_ne_true

end

/-- A double is determined by its sign and the pattern of its absolute value. -/
theorem ofSignBits_magnitudeBits (x : Float) :
    ofSignBits (isNegative x) (magnitudeBits x) = x := by
  have hbits : (if isNegative x = true then signBit + magnitudeBits x else magnitudeBits x) =
      x.toBits.toNat := by
    have hlt : x.toBits.toNat < 2 ^ 64 := x.toBits.toNat_lt
    unfold isNegative magnitudeBits signBit
    simp only [decide_eq_true_eq]
    split <;> omega
  rw [ofSignBits, hbits, UInt64.ofNat_toNat, Float.ofBits_toBits]

/-- The numbers that are finite and not negative, minus zero counting as negative. -/
structure IsPlain (x : Float) : Prop where
  isFinite : x.isFinite = true
  nonneg : isNegative x = false

/-- Such a number is the double with its pattern. -/
theorem IsPlain.ofSignBits_eq (h : IsPlain x) : ofSignBits false (magnitudeBits x) = x := by
  have hx := ofSignBits_magnitudeBits x
  rwa [h.nonneg] at hx

theorem IsPlain.numberText_eq (h : IsPlain x) :
    numberText x =
      if magnitudeBits x = 0 then "0" else String.ofList (Decimal.floatText consoleLayout x) := by
  have hfinite := h.isFinite
  unfold Float.isFinite Float.Model.isFinite at hfinite
  have hnan : x.isNaN = false := by
    unfold Float.isNaN Float.Model.isNaN
    cases hx : x.toModel.unpack with
    | notANumber =>
      rw [hx] at hfinite
      cases hfinite
    | infinity | zero | finite => rfl
  have hinf : x.isInf = false := by
    unfold Float.isInf Float.Model.isInf
    cases hx : x.toModel.unpack with
    | infinity =>
      rw [hx] at hfinite
      cases hfinite
    | notANumber | zero | finite => rfl
  rw [numberText, hnan, hinf, if_neg Bool.false_ne_true, if_neg Bool.false_ne_true]

end Double

/-- **The text of a number reads back.** -/
theorem exists_plain_numberText {x : Float} (h : Double.IsPlain x) :
    ∃ whole fraction, Numeral.Plain whole fraction (numberText x).toList ∧
      Numeral.read? (numberText x).toList = some x := by
  rw [h.numberText_eq]
  split
  case isTrue hzero =>
    have hplain : Numeral.Plain ['0'] [] ['0'] :=
      .whole ⟨by decide, List.forall_mem_singleton.mpr rfl⟩
    have hx := h.ofSignBits_eq
    rw [hzero] at hx
    exact ⟨_, _, hplain, hplain.read?.trans (congrArg some hx)⟩
  case isFalse hpos =>
    have hbits := Decimal.nearestBits_shortestOfBits .up hpos (Double.isFinite_iff.mp h.isFinite)
    have htext : Decimal.floatText consoleLayout x =
        Decimal.positionalText false
          (Decimal.digits (Decimal.shortestOfBits .up (Double.magnitudeBits x)).1)
          (Decimal.shortestOfBits .up (Double.magnitudeBits x)).2 := by
      rw [Decimal.floatText, Decimal.ofFloat]
      simp only [if_neg hpos, h.nonneg]
      rfl
    have hne : (Decimal.shortestOfBits .up (Double.magnitudeBits x)).1 ≠ 0 := by
      intro hzero
      rw [hzero] at hbits
      exact hpos hbits.symm
    obtain ⟨whole, fraction, hplain, hvalue⟩ :=
      Decimal.exists_plain_positionalText hne
        (Decimal.shortestOfBits .up (Double.magnitudeBits x)).2
    rw [String.toList_ofList, htext]
    refine ⟨whole, fraction, hplain, hplain.read?.trans ?_⟩
    rw [Decimal.toFloat, hvalue, hbits, h.ofSignBits_eq]

end Stepwise
