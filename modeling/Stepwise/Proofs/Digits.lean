import Mathlib
import Stepwise.Json.Scan
import Stepwise.Proofs.Numerals

/-!
# How many digits a number has

Numbers in JSON are written with the fewest digits that read back, and a reader takes only so many
digits one by one. That the two agree is a matter of counting. On each grid on which the shortest
decimal is looked for, the number of digits is that of the grid. Were it found on none, the exact
value is written, and that is an integer times a power of two: the two meets the five of the unit
and makes zeros, which are dropped.

Zeros in front of a decimal and behind it do not change its value, but they do count as digits
where digits are counted.

## Main results

* `Decimal.shortestOfBits_lt` — the shortest decimal has no more digits than are read one by one
* `Decimal.length_le_of_ofDigits_lt` — without zeros in front, the value bounds the number of digits
-/

namespace Stepwise

namespace Decimal

/-! ### The grids -/

theorem dropZeros_fst_le (significand : Nat) (exponent : Int) :
    (dropZeros significand exponent).1 ≤ significand := by
  fun_induction dropZeros significand exponent with
  | case1 significand exponent h ih => omega
  | case2 significand exponent h => exact Nat.le_refl _

theorem dropZeros_ten_pow_mul_fst_le (n significand : Nat) (exponent : Int) :
    (dropZeros (10 ^ n * significand) exponent).1 ≤ significand := by
  induction n generalizing exponent with
  | zero =>
    rw [Nat.pow_zero, Nat.one_mul]
    exact dropZeros_fst_le _ _
  | succ n ih =>
    have hsplit : 10 ^ (n + 1) * significand = 10 * (10 ^ n * significand) := by
      rw [Nat.pow_succ', Nat.mul_assoc]
    by_cases hzero : 10 ^ n * significand = 0
    · rw [hsplit, hzero]
      exact Nat.le_trans (dropZeros_fst_le _ _) (Nat.zero_le _)
    · rw [hsplit, dropZeros, if_pos (by omega), Nat.mul_div_cancel_left _ (by decide)]
      exact ih (exponent + 1)

/-- A positive quotient is below the power of ten behind its leading digit. -/
theorem lt_of_leadingExponent {num den : Nat} (hnum : 0 < num) (hden : 0 < den) :
    num * 10 ^ (-(leadingExponent num den + 1)).toNat <
      den * 10 ^ (leadingExponent num den + 1).toNat := by
  unfold leadingExponent
  split
  case isTrue hle =>
    have hcount : num / den < 10 ^ digitCount (num / den) :=
      (Nat.length_toDigits_le_iff (by decide) Nat.length_toDigits_pos).mp (Nat.le_refl _)
    have hlt := (Nat.div_lt_iff_lt_mul hden).mp hcount
    have hexponent : ((digitCount (num / den) : Int) - 1 + 1).toNat = digitCount (num / den) := by
      omega
    have hzero : (-((digitCount (num / den) : Int) - 1 + 1)).toNat = 0 := by omega
    rw [hexponent, hzero, Nat.pow_zero, Nat.mul_one, Nat.mul_comm den]
    exact hlt
  case isFalse hlt =>
    have hpos : 0 < digitCount ((den - 1) / num) := Nat.length_toDigits_pos
    have hcount : 10 ^ (digitCount ((den - 1) / num) - 1) ≤ (den - 1) / num := by
      by_cases hone : digitCount ((den - 1) / num) - 1 = 0
      · rw [hone, Nat.pow_zero, Nat.le_div_iff_mul_le hnum]
        omega
      · refine Nat.le_of_not_lt fun hcount => ?_
        have := (Nat.length_toDigits_le_iff (by decide) (Nat.pos_of_ne_zero hone)).mpr hcount
        unfold digitCount at *
        omega
    have hle := (Nat.le_div_iff_mul_le hnum).mp hcount
    have hexponent : (-(-(digitCount ((den - 1) / num) : Int) + 1)).toNat =
        digitCount ((den - 1) / num) - 1 := by omega
    have hzero : (-(digitCount ((den - 1) / num) : Int) + 1).toNat = 0 := by omega
    rw [hexponent, hzero, Nat.pow_zero, Nat.mul_one, Nat.mul_comm num]
    omega

theorem onGrid?_le {tie : Tie} {bits significand : Nat} {grid : Int}
    (h : onGrid? tie bits grid = some significand) :
    significand ≤ Double.units bits * powerOfTen (-grid).toNat /
      (Double.unitsOfOne * powerOfTen grid.toNat) + 1 := by
  unfold onGrid? at h
  grind

/-- On a grid that is `n` places finer than the leading digit there are `n + 1` digits. -/
theorem onGrid?_le_ten_pow {tie : Tie} {bits significand n : Nat} (hpos : 0 < Double.units bits)
    (h : onGrid? tie bits (leadingExponent (Double.units bits) Double.unitsOfOne - n) =
      some significand) : significand ≤ 10 ^ (n + 1) := by
  have hle := onGrid?_le h
  have hlead := lt_of_leadingExponent hpos Double.unitsOfOne_pos
  generalize leadingExponent (Double.units bits) Double.unitsOfOne = leading at hle hlead
  generalize Double.units bits = num at *
  have hden : 0 < Double.unitsOfOne := Double.unitsOfOne_pos
  generalize Double.unitsOfOne = den at *
  refine Nat.le_trans hle (Nat.succ_le_of_lt (Nat.div_lt_of_lt_mul ?_))
  show num * 10 ^ (-(leading - n)).toNat < den * 10 ^ (leading - n).toNat * 10 ^ (n + 1)
  have hplaces : (-(leading - n)).toNat + (leading + 1).toNat =
      (-(leading + 1)).toNat + ((n + 1) + (leading - n).toNat) := by omega
  refine Nat.lt_of_mul_lt_mul_right (a := 10 ^ (leading + 1).toNat) ?_
  calc num * 10 ^ (-(leading - n)).toNat * 10 ^ (leading + 1).toNat
      = num * 10 ^ (-(leading + 1)).toNat * 10 ^ ((n + 1) + (leading - n).toNat) := by
        rw [Nat.mul_assoc, ← Nat.pow_add, hplaces, Nat.pow_add, Nat.mul_assoc]
    _ < den * 10 ^ (leading + 1).toNat * 10 ^ ((n + 1) + (leading - n).toNat) :=
        (Nat.mul_lt_mul_right (Nat.pow_pos (by decide))).mpr hlead
    _ = den * 10 ^ (leading - n).toNat * 10 ^ (n + 1) * 10 ^ (leading + 1).toNat := by
        rw [Nat.pow_add]
        ac_rfl

end Decimal

namespace Double

/-- The value of a finite double has at most 53 bits, shifted by less than twice `unitLog`. -/
theorem exists_units_eq {bits : Nat} (h : bits < infinityBits) :
    ∃ m shift, units bits = m * 2 ^ shift ∧ m < 2 ^ 53 ∧ shift < 2 * unitLog := by
  have hlog := unitLog_eq
  have hfraction : bits % hiddenBit < hiddenBit := Nat.mod_lt _ (by decide)
  have hhidden : hiddenBit = 2 ^ 52 := by decide
  have hfield : bits / hiddenBit ≤ 2046 := by
    rw [hhidden]
    rw [infinityBits] at h
    omega
  unfold units
  simp only
  split
  · exact ⟨bits % hiddenBit, 0, (Nat.mul_one _).symm, by omega, by omega⟩
  · exact ⟨hiddenBit + bits % hiddenBit, bits / hiddenBit - 1, Nat.shiftLeft_eq _ _, by omega,
      by omega⟩

end Double

namespace Decimal

/-- Without the zeros at its end, the exact value of a finite double has few digits as well. -/
theorem dropZeros_exact_lt {bits : Nat} (h : bits < Double.infinityBits) (exponent : Int) :
    (dropZeros (Double.units bits * 5 ^ Double.unitLog) exponent).1 < 10 ^ Json.maxDigits := by
  obtain ⟨m, shift, hunits, hm, hshift⟩ := Double.exists_units_eq h
  by_cases hle : shift ≤ Double.unitLog
  · have hsplit : Double.units bits * 5 ^ Double.unitLog =
        10 ^ shift * (m * 5 ^ (Double.unitLog - shift)) := by
      have hfive : 5 ^ Double.unitLog = 5 ^ shift * 5 ^ (Double.unitLog - shift) := by
        rw [← Nat.pow_add, Nat.add_sub_cancel' hle]
      rw [hunits, hfive, show 10 = 5 * 2 from rfl, Nat.mul_pow]
      ring
    have hbound : 2 ^ 53 * 5 ^ Double.unitLog < 10 ^ Json.maxDigits := by
      rw [Double.unitLog_eq]
      decide +kernel
    rw [hsplit]
    refine Nat.lt_of_le_of_lt (dropZeros_ten_pow_mul_fst_le _ _ _) (Nat.lt_of_le_of_lt ?_ hbound)
    exact Nat.mul_le_mul (Nat.le_of_lt hm) (Nat.pow_le_pow_right (by decide) (Nat.sub_le _ _))
  · have hsplit : Double.units bits * 5 ^ Double.unitLog =
        10 ^ Double.unitLog * (m * 2 ^ (shift - Double.unitLog)) := by
      have htwo : 2 ^ shift = 2 ^ Double.unitLog * 2 ^ (shift - Double.unitLog) := by
        rw [← Nat.pow_add, Nat.add_sub_cancel' (Nat.le_of_not_le hle)]
      rw [hunits, htwo, show 10 = 5 * 2 from rfl, Nat.mul_pow]
      ring
    have hbound : 2 ^ 53 * 2 ^ Double.unitLog < 10 ^ Json.maxDigits := by
      rw [Double.unitLog_eq]
      decide +kernel
    rw [hsplit]
    refine Nat.lt_of_le_of_lt (dropZeros_ten_pow_mul_fst_le _ _ _) (Nat.lt_of_le_of_lt ?_ hbound)
    exact Nat.mul_le_mul (Nat.le_of_lt hm) (Nat.pow_le_pow_right (by decide) (by omega))

/-- **The shortest decimal has no more digits than are read one by one.** -/
theorem shortestOfBits_lt (tie : Tie) {bits : Nat} (hpos : bits ≠ 0)
    (h : bits < Double.infinityBits) : (shortestOfBits tie bits).1 < 10 ^ Json.maxDigits := by
  unfold shortestOfBits
  simp only
  generalize hfound : List.findSome? _ _ = found
  cases found with
  | none =>
    rw [Option.getD_none, ← Double.unitLog_eq, Nat.pow_eq]
    exact dropZeros_exact_lt h _
  | some decimal =>
    obtain ⟨n, hmem, hn⟩ := List.exists_of_findSome?_eq_some hfound
    obtain ⟨significand, hgrid, rfl⟩ := Option.map_eq_some_iff.mp hn
    have hunits : Double.units bits ≠ 0 := Double.units_ne_zero hpos h
    have hplaces : n < 17 := List.mem_range.mp hmem
    have hroom : 18 < Json.maxDigits := by decide
    calc (dropZeros significand _).1
        ≤ significand := dropZeros_fst_le _ _
      _ ≤ 10 ^ (n + 1) := onGrid?_le_ten_pow (Nat.pos_of_ne_zero hunits) hgrid
      _ < 10 ^ Json.maxDigits := Nat.pow_lt_pow_right (by decide) (by omega)

/-! ### Zeros around digits -/

theorem ofDigits_zero_cons (cs : List Char) : ofDigits ('0' :: cs) = ofDigits cs :=
  ofDigits_zeros_append 1 cs

theorem ofDigits_dropWhile_zero (cs : List Char) :
    ofDigits (cs.dropWhile (· == '0')) = ofDigits cs := by
  induction cs with
  | nil => rfl
  | cons c cs ih =>
    rw [List.dropWhile_cons]
    split
    case isTrue hc => rw [ih, beq_iff_eq.mp hc, ofDigits_zero_cons]
    case isFalse => rfl

/-- A number that is not zero does not begin with a zero. -/
theorem head?_digits_ne {n : Nat} (h : n ≠ 0) : (digits n).head? ≠ some '0' := by
  induction n using Nat.strong_induction_on with
  | _ n ih =>
    by_cases hn : n < 10
    · rw [digits, Nat.toDigits_of_lt_base hn, List.head?_cons]
      interval_cases n <;> first | exact absurd rfl h | decide
    · have hle : 10 ≤ n := Nat.le_of_not_lt hn
      rw [digits, Nat.toDigits_of_base_le (by decide) hle,
        List.head?_append_of_ne_nil _ Nat.toDigits_ne_nil]
      exact ih (n / 10) (by omega) (by omega)

/-- Without zeros in front, a number of `k` digits is at least `10 ^ (k - 1)`. -/
theorem length_le_of_ofDigits_lt {cs : List Char} {k : Nat} (hdigits : ∀ c ∈ cs, c.isDigit = true)
    (hhead : cs.head? ≠ some '0') (h : ofDigits cs < 10 ^ k) : cs.length ≤ k := by
  cases cs with
  | nil => exact Nat.zero_le k
  | cons c cs =>
    have hc : '0'.toNat < c.toNat := by
      have hdigit := hdigits c List.mem_cons_self
      simp only [Char.isDigit, Bool.and_eq_true, decide_eq_true_eq] at hdigit
      refine Nat.lt_of_le_of_ne hdigit.1 fun heq => hhead ?_
      rw [List.head?_cons, Char.toNat_inj.mp heq]
    have hvalue : ofDigits (c :: cs) = 10 ^ cs.length * (c.toNat - '0'.toNat) + ofDigits cs := by
      rw [ofDigits_eq, Nat.ofDigitChars_cons, Nat.ofDigitChars_eq_ofDigitChars_zero, Nat.mul_zero,
        Nat.zero_add, ofDigits_eq]
    have hle : 10 ^ cs.length ≤ ofDigits (c :: cs) :=
      calc 10 ^ cs.length
          ≤ 10 ^ cs.length * (c.toNat - '0'.toNat) := Nat.le_mul_of_pos_right _ (by omega)
        _ ≤ ofDigits (c :: cs) := hvalue ▸ Nat.le_add_right _ _
    have hpow : 10 ^ cs.length < 10 ^ k := Nat.lt_of_le_of_lt hle h
    exact (Nat.pow_lt_pow_iff_right (by decide)).mp hpow

theorem nearestBits_ten_pow_mul (n significand : Nat) (exponent : Int) :
    nearestBits (10 ^ n * significand) exponent = nearestBits significand (exponent + n) := by
  induction n generalizing exponent with
  | zero => simp
  | succ n ih =>
    by_cases hzero : 10 ^ n * significand = 0
    · have hsignificand : significand = 0 := by simpa using hzero
      simp [hsignificand, nearestBits]
    · rw [Nat.pow_succ', Nat.mul_assoc, nearestBits_ten_mul hzero, ih]
      exact congrArg (nearestBits significand) (by omega)

end Decimal

end Stepwise
