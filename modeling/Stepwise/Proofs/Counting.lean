import Mathlib
import Stepwise.Depth

/-!
# Loops with a counter

Each loop that counts goes over a list and does three things with its count: it looks at the sign
of the count to see whether it is to end, it may move the count up or down by one, and it does so
as the element in front demands. A `CountingLoop` is no more than that, so its counts can be
followed whatever else a loop does.

A machine word counts like the integers as long as it stays in its range. A loop keeps the count
in the range by itself: going up takes an element, so the length of the list is a bound, and going
down is guarded, as the loop has come to an end where the count may go down no further.

## Main definitions

* `Depth.Faithful` — a type that counts like the integers of a range
* `CountingLoop.run` — what a loop reads, and the count in front of each element
* `CountingLoop.Keeps` — a loop that counts in words as in the integers

## Main results

* `CountingLoop.keeps` — a guarded loop over a short list keeps count
-/

namespace Stepwise

/-! ### Words and integers -/

namespace Depth

/-- A type that counts like the integers from `low` to `high`, of which its elements have the values
that are given. What it does at the ends of the range is left open. -/
structure Faithful {κ : Type} [Depth κ] (low high : Int) (value : κ → Int) : Prop where
  zero : value Depth.zero = 0
  up : ∀ {d : κ}, value d < high → value (Depth.up d) = value d + 1
  down : ∀ {d : κ}, low < value d → value (Depth.down d) = value d - 1
  sign : ∀ d : κ, Depth.sign d = signOfInt (value d)

namespace Faithful

variable {κ : Type} [Depth κ] {low high : Int} {value : κ → Int}

theorem one (h : Faithful low high value) (hhigh : 0 < high) : value Depth.one = 1 := by
  have hzero := h.zero
  rw [Depth.one, h.up (by rwa [hzero]), hzero]
  rfl

theorem isZero (h : Faithful low high value) (d : κ) :
    Depth.isZero (value d) = Depth.isZero d := by
  rw [Depth.isZero, Depth.isZero, h.sign, sign_int]

theorem isZero_iff (h : Faithful low high value) (d : κ) :
    Depth.isZero d = true ↔ value d = 0 := by
  rw [← h.isZero, isZero_int]

theorem isZero_eq_false (h : Faithful low high value) {d : κ} (hpos : 0 < value d) :
    Depth.isZero d = false := by
  refine Bool.eq_false_iff.mpr fun hzero => ?_
  rw [h.isZero_iff] at hzero
  omega

theorem mono (h : Faithful low high value) {low' high' : Int} (hlow : low ≤ low')
    (hhigh : high' ≤ high) : Faithful low' high' value where
  zero := h.zero
  up := fun hd => h.up (by omega)
  down := fun hd => h.down (by omega)
  sign := h.sign

end Faithful

theorem faithful_int (low high : Int) : Faithful low high (id : Int → Int) where
  zero := rfl
  up := fun _ => rfl
  down := fun _ => rfl
  sign := fun _ => rfl

/-- What an unsigned word of 32 bits stands for. -/
def unsigned32 (d : UInt32) : Int := d.toNat

/-- What an unsigned word of 64 bits stands for. -/
def unsigned64 (d : UInt64) : Int := d.toNat

theorem faithful_unsigned32 : Faithful 0 (2 ^ 32 - 1) unsigned32 where
  zero := rfl
  up := by
    intro d hd
    unfold unsigned32 at hd ⊢
    have hstep : (Depth.up d).toNat = (d.toNat + 1) % 2 ^ 32 := UInt32.toNat_add d 1
    omega
  down := by
    intro d hd
    unfold unsigned32 at hd ⊢
    have hstep : (Depth.down d).toNat = (2 ^ 32 - 1 + d.toNat) % 2 ^ 32 := UInt32.toNat_sub d 1
    have := d.toNat_lt
    omega
  sign := by
    intro d
    have hzero : d = 0 ↔ d.toNat = 0 := UInt32.toNat_inj.symm
    show (if d = 0 then Ordering.eq else .gt) = _
    grind [signOfInt, unsigned32]

theorem faithful_unsigned64 : Faithful 0 (2 ^ 64 - 1) unsigned64 where
  zero := rfl
  up := by
    intro d hd
    unfold unsigned64 at hd ⊢
    have hstep : (Depth.up d).toNat = (d.toNat + 1) % 2 ^ 64 := UInt64.toNat_add d 1
    omega
  down := by
    intro d hd
    unfold unsigned64 at hd ⊢
    have hstep : (Depth.down d).toNat = (2 ^ 64 - 1 + d.toNat) % 2 ^ 64 := UInt64.toNat_sub d 1
    have := d.toNat_lt
    omega
  sign := by
    intro d
    have hzero : d = 0 ↔ d.toNat = 0 := UInt64.toNat_inj.symm
    show (if d = 0 then Ordering.eq else .gt) = _
    grind [signOfInt, unsigned64]

theorem faithful_signed32 : Faithful (-2 ^ 31) (2 ^ 31 - 1) Int32.toInt where
  zero := rfl
  up := by
    intro d hd
    have hlow := d.le_toInt
    have hstep : (Depth.up d).toInt = (d.toInt + 1).bmod (2 ^ 32) := Int32.toInt_add d 1
    rw [hstep, Int.bmod_eq_of_le] <;> omega
  down := by
    intro d hd
    have hhigh := d.toInt_lt
    have hstep : (Depth.down d).toInt = (d.toInt - 1).bmod (2 ^ 32) := Int32.toInt_sub d 1
    rw [hstep, Int.bmod_eq_of_le] <;> omega
  sign := fun d => rfl

end Depth

/-! ### Loops -/

/-- What an element of a list does to a count. -/
inductive Move where
  | stay
  | up
  | down
deriving DecidableEq

/-- The count behind an element. -/
def Move.apply {κ : Type} [Depth κ] : Move → κ → κ
  | stay, d => d
  | up, d => Depth.up d
  | down, d => Depth.down d

theorem Depth.Faithful.apply {κ : Type} [Depth κ] {low high : Int} {value : κ → Int}
    (h : Depth.Faithful low high value) {m : Move} {d : κ} (hlow : m = .down → low < value d)
    (hhigh : value d < high) : value (m.apply d) = m.apply (value d) := by
  cases m with
  | stay => rfl
  | up => exact h.up hhigh
  | down => exact h.down (hlow rfl)

namespace Move

theorem apply_le (m : Move) (n : Int) : m.apply n ≤ n + 1 := by
  cases m <;> simp only [apply, Depth.up_int, Depth.down_int] <;> omega

theorem le_apply {m : Move} {floor n : Int} (h : floor ≤ n) (hdown : m = .down → floor < n) :
    floor ≤ m.apply n := by
  cases m with
  | stay => exact h
  | up => exact Int.le_trans h (Int.le_of_lt (Int.lt_add_one_of_le (Int.le_refl n)))
  | down => exact Int.le_sub_one_of_lt (hdown rfl)

end Move

theorem Depth.Faithful.apply_le {κ : Type} [Depth κ] {high : Int} {value : κ → Int}
    (h : Depth.Faithful 0 high value) (m : Move) {d : κ} (hpos : 0 < value d)
    (hhigh : value d < high) : value (m.apply d) ≤ value d + 1 := by
  rw [h.apply (fun _ => hpos) hhigh]
  exact m.apply_le (value d)

/-- A count above zero stays there, unless it is moved down to zero. -/
theorem Depth.Faithful.closes_or_pos {κ : Type} [Depth κ] {high : Int} {value : κ → Int}
    (h : Depth.Faithful 0 high value) (m : Move) {d : κ} (hpos : 0 < value d)
    (hhigh : value d < high) :
    m = .down ∧ Depth.isZero (m.apply d) = true ∨
      0 < value (m.apply d) ∧ ¬ (m = .down ∧ Depth.isZero (m.apply d) = true) := by
  have hmove := h.apply (m := m) (d := d) (fun _ => hpos) hhigh
  rw [h.isZero_iff, hmove]
  cases m <;> simp only [Move.apply, Depth.up_int, Depth.down_int] <;> grind

/-- What a loop over a list does with its count. -/
structure CountingLoop (α : Type) where
  /-- Whether the loop ends in front of an element, by the sign of the count. -/
  stops : Ordering → α → Bool
  move : α → Move

/-- What is left behind when a loop with a counter has come to its end. -/
structure CountingRun (α κ : Type) where
  /-- The elements that were read, each with the count in front of it. -/
  read : List (α × κ)
  last : κ
  rest : List α

namespace CountingRun

variable {α κ κ' : Type}

/-- The run with a further element in front. -/
def cons (x : α) (d : κ) (r : CountingRun α κ) : CountingRun α κ :=
  ⟨(x, d) :: r.read, r.last, r.rest⟩

/-- The run with other counts. -/
def map (value : κ → κ') (r : CountingRun α κ) : CountingRun α κ' :=
  ⟨r.read.map fun p => (p.1, value p.2), value r.last, r.rest⟩

theorem map_cons (value : κ → κ') (x : α) (d : κ) (r : CountingRun α κ) :
    (r.cons x d).map value = (r.map value).cons x (value d) := rfl

end CountingRun

namespace CountingLoop

variable {α κ : Type} [Depth κ]

/-- Runs a loop over a list, with the count at `d`. -/
def run (l : CountingLoop α) (d : κ) : List α → CountingRun α κ
  | [] => ⟨[], d, []⟩
  | x :: xs =>
    if l.stops (Depth.sign d) x then ⟨[], d, x :: xs⟩
    else (l.run ((l.move x).apply d) xs).cons x d

theorem run_nil (l : CountingLoop α) (d : κ) : l.run d [] = ⟨[], d, []⟩ := rfl

theorem run_of_stops {l : CountingLoop α} {d : κ} {x : α} (h : l.stops (Depth.sign d) x = true)
    (xs : List α) : l.run d (x :: xs) = ⟨[], d, x :: xs⟩ := by rw [run, if_pos h]

/-- A loop that stops at every element reads none. -/
theorem run_of_forall_stops {l : CountingLoop α} {d : κ}
    (h : ∀ x, l.stops (Depth.sign d) x = true) (xs : List α) : l.run d xs = ⟨[], d, xs⟩ := by
  cases xs with
  | nil => rfl
  | cons x xs => exact run_of_stops (h x) xs

theorem run_of_goesOn {l : CountingLoop α} {d : κ} {x : α} (h : l.stops (Depth.sign d) x = false)
    (xs : List α) : l.run d (x :: xs) = (l.run ((l.move x).apply d) xs).cons x d := by
  rw [run, if_neg (Bool.eq_false_iff.mp h)]

/-- A loop with its counts in words, of which `value` says what they stand for. The counts are those
of the same loop in the integers and move as they do there, and none is moved down from `floor` or
below. -/
structure Keeps (l : CountingLoop α) (floor : Int) (value : κ → Int) (d : κ) (xs : List α) :
    Prop where
  exact : (l.run d xs).map value = l.run (value d) xs
  moves : ∀ p ∈ (l.run d xs).read, value ((l.move p.1).apply p.2) = (l.move p.1).apply (value p.2)
  above : ∀ p ∈ (l.run d xs).read, l.move p.1 = .down → floor < value p.2

/-- A loop that has come to its end where an element would move the count down from `floor`. -/
def Guards (l : CountingLoop α) (floor : Int) (x : α) : Prop :=
  l.move x = .down → l.stops (Depth.signOfInt floor) x = true

variable {l : CountingLoop α} {floor : Int} {value : κ → Int} {d : κ} {x : α} {xs : List α}

theorem Keeps.of_stops (hsign : ∀ d : κ, Depth.sign d = Depth.signOfInt (value d))
    (h : l.stops (Depth.sign d) x = true) : l.Keeps floor value d (x :: xs) where
  exact := by
    rw [run_of_stops h, run_of_stops (by rwa [hsign] at h)]
    rfl
  moves := by
    rw [run_of_stops h]
    exact fun p hp => absurd hp List.not_mem_nil
  above := by
    rw [run_of_stops h]
    exact fun p hp => absurd hp List.not_mem_nil

theorem Keeps.cons (hsign : ∀ d : κ, Depth.sign d = Depth.signOfInt (value d))
    (h : l.stops (Depth.sign d) x = false) (hfloor : l.move x = .down → floor < value d)
    (hmove : value ((l.move x).apply d) = (l.move x).apply (value d))
    (hbehind : l.Keeps floor value ((l.move x).apply d) xs) : l.Keeps floor value d (x :: xs) where
  exact := by
    rw [run_of_goesOn h, run_of_goesOn (by rwa [hsign] at h), CountingRun.map_cons, hbehind.exact,
      hmove]
  moves := by
    rw [run_of_goesOn h]
    exact List.forall_mem_cons.mpr ⟨hmove, hbehind.moves⟩
  above := by
    rw [run_of_goesOn h]
    exact List.forall_mem_cons.mpr ⟨hfloor, hbehind.above⟩

/-- **A guarded loop over a short list keeps count.** The count is at `floor` or above in front of
every element, and every element moves it up by at most one. -/
theorem keeps {low high : Int} (hκ : Depth.Faithful low high value) (hlow : low ≤ floor)
    (hguards : ∀ x ∈ xs, l.Guards floor x) (hfloor : floor ≤ value d)
    (hhigh : value d + xs.length ≤ high) : l.Keeps floor value d xs := by
  induction xs generalizing d with
  | nil =>
    exact ⟨rfl, fun p hp => absurd hp List.not_mem_nil, fun p hp => absurd hp List.not_mem_nil⟩
  | cons x xs ih =>
    obtain ⟨hguard, hguards⟩ := List.forall_mem_cons.mp hguards
    rw [List.length_cons, Int.natCast_succ] at hhigh
    cases hstops : l.stops (Depth.sign d) x with
    | true => exact .of_stops hκ.sign hstops
    | false =>
      have habove : l.move x = .down → floor < value d := by
        intro hdown
        refine Int.lt_iff_le_and_ne.mpr ⟨hfloor, fun heq => ?_⟩
        rw [hκ.sign, ← heq, hguard hdown] at hstops
        cases hstops
      have hmove : value ((l.move x).apply d) = (l.move x).apply (value d) :=
        hκ.apply (fun hdown => Int.lt_of_le_of_lt hlow (habove hdown)) (by omega)
      refine .cons hκ.sign hstops habove hmove (ih hguards ?_ ?_)
      · rw [hmove]
        exact Move.le_apply hfloor habove
      · have := (l.move x).apply_le (value d)
        rw [hmove]
        omega

end CountingLoop

end Stepwise
