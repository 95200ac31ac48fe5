import Mathlib
import Stepwise.Decimal.Layout

/-!
# Rounding decimals

The pattern nearest to a decimal depends on its value only, and not on how the value is split into a
significand and an exponent. With that, the decimal that is written for a double is seen to be
rounded to that double again, also when the zeros at its end have been dropped.

The exponents that are answered without any arithmetic stand in the way, as a significand and an
exponent can be on one side of the bounds, and another pair of the same value on the other. The
answers there are those of the rounding, so the bounds can be forgotten first.

## Main results

* `Double.nearestBits_mul_left` — rounding does not depend on how a quotient is written
* `Double.nearestBits_units` — the value of a pattern is rounded to the pattern
* `Decimal.nearestBits_eq` — the pattern nearest to a decimal without bounds on the exponent
* `Decimal.nearestBits_shortestOfBits` — the shortest decimal of a pattern reads back
-/

namespace Stepwise

/-! ### Quotients -/

theorem roundHalfEven_mul_left {k : Nat} (h : 0 < k) (num den : Nat) :
    roundHalfEven (k * num) (k * den) = roundHalfEven num den := by
  have hless : 2 * (k * (num % den)) < k * den ↔ 2 * (num % den) < den := by
    rw [Nat.mul_left_comm]
    exact Nat.mul_lt_mul_left h
  have heq : 2 * (k * (num % den)) = k * den ↔ 2 * (num % den) = den := by
    rw [Nat.mul_left_comm]
    exact Nat.mul_right_inj (Nat.pos_iff_ne_zero.mp h)
  simp only [roundHalfEven, Nat.mul_div_mul_left num den h, Nat.mul_mod_mul_left, hless, heq]

/-- Less than half is rounded to zero. -/
theorem roundHalfEven_of_lt {num den : Nat} (h : 2 * num < den) : roundHalfEven num den = 0 := by
  have hlt : num < den := by omega
  rw [roundHalfEven, Nat.div_eq_of_lt hlt, Nat.mod_eq_of_lt hlt]
  exact if_pos (.inl h)

namespace Double

/-- The smallest positive double is two to the minus this. -/
@[irreducible] def unitLog : Nat := 1074

theorem unitLog_eq : unitLog = 1074 := by rw [unitLog]

theorem unitsOfOne_eq : unitsOfOne = 2 ^ unitLog := by
  rw [unitsOfOne, ← unitLog_eq, Nat.one_shiftLeft]

theorem unitsOfOne_pos : 0 < unitsOfOne := by
  rw [unitsOfOne_eq]
  exact Nat.two_pow_pos _

/-- Rounding does not depend on how a quotient is written. -/
theorem nearestBits_mul_left {k : Nat} (h : 0 < k) (num den : Nat) :
    nearestBits (k * num) (k * den) = nearestBits num den := by
  have hshift : ∀ shift, (k * den) <<< shift = k * den <<< shift := fun shift => by
    rw [Nat.shiftLeft_eq, Nat.shiftLeft_eq, Nat.mul_assoc]
  simp only [nearestBits, Nat.mul_assoc k num unitsOfOne, Nat.mul_div_mul_left _ den h, hshift,
    roundHalfEven_mul_left h]

/-- Quotients from `2 ^ 1025` on are too large. -/
theorem nearestBits_of_large {num den k : Nat} (hden : 0 < den) (hk : 1025 ≤ k)
    (h : 2 ^ k * den ≤ num) : nearestBits num den = infinityBits := by
  have hquotient : 2 ^ (k + unitLog) ≤ num * unitsOfOne / den := by
    rw [Nat.le_div_iff_mul_le hden, unitsOfOne_eq, Nat.pow_add, Nat.mul_right_comm]
    exact Nat.mul_le_mul_right _ h
  have hne : num * unitsOfOne / den ≠ 0 := by
    have := Nat.two_pow_pos (k + unitLog)
    omega
  have hlog : k + 1074 ≤ (num * unitsOfOne / den).log2 := by
    rw [← unitLog_eq]
    exact (Nat.le_log2 hne).mpr hquotient
  have hshift : 2047 * hiddenBit ≤ ((num * unitsOfOne / den).log2 - 52) * hiddenBit :=
    Nat.mul_le_mul_right _ (by omega)
  rw [nearestBits]
  exact Nat.min_eq_right (Nat.le_trans hshift (Nat.le_add_right _ _))

/-- Quotients below half of the smallest double are too small. -/
theorem nearestBits_of_small {num den : Nat} (h : 2 * (num * unitsOfOne) < den) :
    nearestBits num den = 0 := by
  have hquotient : num * unitsOfOne / den = 0 := Nat.div_eq_of_lt (by omega)
  have hlog : (0 : Nat).log2 - 52 = 0 := by decide
  simp only [nearestBits, hquotient, hlog, Nat.zero_mul, Nat.zero_add, Nat.shiftLeft_zero,
    roundHalfEven_of_lt h, Nat.zero_min]

theorem log2_sub_of_lt {n : Nat} (h : n < hiddenBit) : n.log2 - 52 = 0 := by
  by_cases hn : n = 0
  · rw [hn]
    decide
  · have hlog : n.log2 < 52 := (Nat.log2_lt hn).mpr h
    omega

theorem log2_shiftLeft_sub {n shift : Nat} (h : hiddenBit ≤ n) (hn : n < 2 * hiddenBit) :
    (n <<< shift).log2 - 52 = shift := by
  have hpos : 0 < 2 ^ shift := Nat.two_pow_pos shift
  have hlow : 2 ^ (52 + shift) ≤ n * 2 ^ shift := by
    rw [Nat.pow_add]
    exact Nat.mul_le_mul_right _ h
  have hhigh : n * 2 ^ shift < 2 ^ (52 + shift + 1) := by
    rw [show 52 + shift + 1 = 53 + shift by omega, Nat.pow_add]
    exact (Nat.mul_lt_mul_right hpos).mpr hn
  have hne : n * 2 ^ shift ≠ 0 := by
    have := Nat.two_pow_pos (52 + shift)
    omega
  rw [Nat.shiftLeft_eq, (Nat.log2_eq_iff hne).mpr ⟨hlow, hhigh⟩]
  omega

/-- The value of a pattern is rounded to the pattern. -/
theorem nearestBits_units {bits : Nat} (h : bits < infinityBits) :
    nearestBits (units bits) unitsOfOne = bits := by
  have hquotient : units bits * unitsOfOne / unitsOfOne = units bits :=
    Nat.mul_div_cancel _ unitsOfOne_pos
  have hfraction : bits % hiddenBit < hiddenBit := Nat.mod_lt _ (by decide)
  have hbits : bits / hiddenBit * hiddenBit + bits % hiddenBit = bits :=
    Nat.div_add_mod' bits hiddenBit
  rw [nearestBits, hquotient]
  refine (congrArg (min · infinityBits) ?_).trans (Nat.min_eq_left (Nat.le_of_lt h))
  by_cases hfield : bits / hiddenBit = 0
  · -- Subnormal numbers are units themselves.
    have hunits : units bits = bits := by
      rw [hfield, Nat.zero_mul, Nat.zero_add] at hbits
      rw [units, if_pos hfield, hbits]
    have hsmall : bits < hiddenBit := by
      rw [hfield] at hbits
      omega
    rw [hunits, log2_sub_of_lt hsmall, Nat.zero_mul, Nat.zero_add, Nat.shiftLeft_zero,
      roundHalfEven_mul_right unitsOfOne_pos]
  · have hunits : units bits = (hiddenBit + bits % hiddenBit) <<< (bits / hiddenBit - 1) := by
      rw [units, if_neg hfield]
    have hexact : (hiddenBit + bits % hiddenBit) <<< (bits / hiddenBit - 1) * unitsOfOne =
        (hiddenBit + bits % hiddenBit) * unitsOfOne <<< (bits / hiddenBit - 1) := by
      rw [Nat.shiftLeft_eq, Nat.shiftLeft_eq, Nat.mul_right_comm, Nat.mul_assoc]
    have hpos : 0 < unitsOfOne <<< (bits / hiddenBit - 1) := by
      rw [Nat.shiftLeft_eq]
      exact Nat.mul_pos unitsOfOne_pos (Nat.two_pow_pos _)
    have hdown : (bits / hiddenBit - 1) * hiddenBit + hiddenBit =
        bits / hiddenBit * hiddenBit := by
      rw [← Nat.succ_mul, Nat.succ_eq_add_one, Nat.sub_add_cancel (Nat.pos_of_ne_zero hfield)]
    rw [hunits, log2_shiftLeft_sub (Nat.le_add_right _ _) (by omega), hexact,
      roundHalfEven_mul_right hpos]
    omega

theorem units_ne_zero {bits : Nat} (hpos : bits ≠ 0) (h : bits < infinityBits) :
    units bits ≠ 0 := by
  intro hzero
  have hround := nearestBits_units h
  rw [hzero, nearestBits_of_small (by simpa using unitsOfOne_pos)] at hround
  exact hpos hround.symm

end Double

namespace Decimal

/-! ### Decimals -/

theorem powerOfTen_succ (n : Nat) : powerOfTen (n + 1) = 10 * powerOfTen n := by
  show 10 ^ (n + 1) = 10 * 10 ^ n
  rw [Nat.pow_succ, Nat.mul_comm]

theorem powerOfTen_eq (n : Nat) : powerOfTen n = 5 ^ n * 2 ^ n := by
  rw [← Nat.mul_pow]
  rfl

/-- A power of ten is at least the same power of eight. -/
theorem two_pow_le_powerOfTen (n : Nat) : 2 ^ (3 * n) ≤ powerOfTen n := by
  rw [Nat.pow_mul]
  exact Nat.pow_le_pow_left (by decide) n

/-- The pattern nearest to a decimal, without bounds on the exponent. -/
theorem nearestBits_eq {significand : Nat} (h : significand ≠ 0) (exponent : Int) :
    nearestBits significand exponent =
      Double.nearestBits (significand * powerOfTen exponent.toNat)
        (powerOfTen (-exponent).toNat) := by
  have hone : powerOfTen 0 = 1 := rfl
  unfold nearestBits
  rw [if_neg h]
  split
  case isTrue hlarge =>
    have hden : (-exponent).toNat = 0 := by omega
    rw [hden, hone]
    refine (Double.nearestBits_of_large (k := 3 * exponent.toNat) (by decide) (by omega) ?_).symm
    rw [Nat.mul_one]
    exact Nat.le_trans (two_pow_le_powerOfTen _) (Nat.le_mul_of_pos_left _ (Nat.pos_of_ne_zero h))
  case isFalse =>
    split
    case isTrue hsmall =>
      have hnum : exponent.toNat = 0 := by omega
      rw [hnum, hone, Nat.mul_one]
      refine (Double.nearestBits_of_small ?_).symm
      have hlog : significand < 2 ^ (significand.log2 + 1) := Nat.lt_log2_self
      have hunit := Double.unitLog_eq
      calc 2 * (significand * Double.unitsOfOne)
          < 2 * (2 ^ (significand.log2 + 1) * Double.unitsOfOne) :=
            (Nat.mul_lt_mul_left (by decide)).mpr
              ((Nat.mul_lt_mul_right Double.unitsOfOne_pos).mpr hlog)
        _ = 2 ^ (significand.log2 + 2 + Double.unitLog) := by
            rw [Double.unitsOfOne_eq, ← Nat.pow_add, ← Nat.pow_succ']
            exact congrArg (2 ^ ·) (by omega)
        _ ≤ 2 ^ (3 * (-exponent).toNat) := Nat.pow_le_pow_right (by decide) (by omega)
        _ ≤ powerOfTen (-exponent).toNat := two_pow_le_powerOfTen _
    case isFalse =>
      split
      case isTrue hnonneg =>
        have hden : (-exponent).toNat = 0 := by omega
        rw [hden, hone]
      case isFalse hneg =>
        have hnum : exponent.toNat = 0 := by omega
        rw [hnum, hone, Nat.mul_one]

/-- A zero at the end of the significand can be dropped. -/
theorem nearestBits_ten_mul {significand : Nat} (h : significand ≠ 0) (exponent : Int) :
    nearestBits (10 * significand) exponent = nearestBits significand (exponent + 1) := by
  have hten : 10 * significand ≠ 0 := by omega
  rw [nearestBits_eq hten, nearestBits_eq h]
  by_cases hexponent : 0 ≤ exponent
  · have hnum : (exponent + 1).toNat = exponent.toNat + 1 := by omega
    have hden : (-(exponent + 1)).toNat = (-exponent).toNat := by omega
    rw [hnum, hden, powerOfTen_succ, Nat.mul_left_comm, Nat.mul_assoc]
  · have hnum : (exponent + 1).toNat = exponent.toNat := by omega
    have hden : (-exponent).toNat = (-(exponent + 1)).toNat + 1 := by omega
    rw [hnum, hden, powerOfTen_succ, Nat.mul_assoc, Double.nearestBits_mul_left (by decide)]

theorem nearestBits_dropZeros (significand : Nat) (exponent : Int) :
    nearestBits (dropZeros significand exponent).1 (dropZeros significand exponent).2 =
      nearestBits significand exponent := by
  fun_induction dropZeros significand exponent with
  | case1 significand exponent h ih =>
    have hsplit : significand = 10 * (significand / 10) := by omega
    have hne : significand / 10 ≠ 0 := by omega
    rw [ih, ← nearestBits_ten_mul hne, ← hsplit]
  | case2 significand exponent h => rfl

/-- The exact value reads back. -/
theorem nearestBits_units {bits : Nat} (hpos : bits ≠ 0) (h : bits < Double.infinityBits) :
    nearestBits (Double.units bits * 5 ^ Double.unitLog) (-Double.unitLog) = bits := by
  have hunits : Double.units bits ≠ 0 := Double.units_ne_zero hpos h
  have hfive : 0 < 5 ^ Double.unitLog := Nat.pow_pos (by decide)
  have hten : powerOfTen Double.unitLog = 5 ^ Double.unitLog * Double.unitsOfOne := by
    rw [Double.unitsOfOne_eq, powerOfTen_eq]
  have hsplit := nearestBits_eq (Nat.mul_ne_zero hunits (Nat.pos_iff_ne_zero.mp hfive))
    (-Double.unitLog)
  rw [Int.neg_neg, Int.toNat_natCast, hten, Int.toNat_neg_natCast] at hsplit
  have hone : powerOfTen 0 = 1 := rfl
  rw [hone, Nat.mul_one, Nat.mul_comm (Double.units bits), Double.nearestBits_mul_left hfive,
    Double.nearestBits_units h, Nat.mul_comm] at hsplit
  exact hsplit

/-- **The shortest decimal of a pattern reads back.** -/
theorem nearestBits_shortestOfBits (tie : Tie) {bits : Nat} (hpos : bits ≠ 0)
    (h : bits < Double.infinityBits) :
    nearestBits (shortestOfBits tie bits).1 (shortestOfBits tie bits).2 = bits := by
  unfold shortestOfBits
  simp only
  generalize hfound : List.findSome? _ _ = found
  rw [nearestBits_dropZeros]
  cases found with
  | none =>
    have hexponent : (-1074 : Int) = -Double.unitLog := by
      rw [Double.unitLog_eq]
      rfl
    rw [Option.getD_none, hexponent, ← Double.unitLog_eq, Nat.pow_eq]
    exact nearestBits_units hpos h
  | some decimal =>
    obtain ⟨n, -, hn⟩ := List.exists_of_findSome?_eq_some hfound
    obtain ⟨significand, hgrid, rfl⟩ := Option.map_eq_some_iff.mp hn
    exact beq_iff_eq.mp (readsBack_of_onGrid? hgrid)

end Decimal

end Stepwise
