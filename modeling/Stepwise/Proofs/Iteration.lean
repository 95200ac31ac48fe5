import Stepwise.Machine
import Mathlib.Logic.Function.Iterate

/-!
# Runs as iterated steps

A run stops at the first state past the end of the program. A step past the end changes nothing,
so it does no harm to go on stepping: the last state of a run within `n` steps is the state after
exactly `n` steps, whenever the run got there.

This takes the stopping out of the reasoning about runs. What a piece of a program does is said
of `State.after`, which has no budget and no first finished state in it, and the budget comes back
in one place, `run_eq_ok_iff`.

## Main definitions

* `State.after` — the state after a number of steps

## Main results

* `run_eq_ok_iff` — a run with budget `n` ends if and only if the state after `n` steps is past
  the end, and then that is the state it ends in
-/

namespace Stepwise

variable {program : Program}

namespace State

/-- The state after `n` steps. -/
def after (program : Program) (n : Nat) (s : State) : State := (next program)^[n] s

@[simp] theorem after_zero (s : State) : s.after program 0 = s := rfl

theorem after_succ (n : Nat) (s : State) :
    s.after program (n + 1) = (s.next program).after program n :=
  Function.iterate_succ_apply ..

theorem after_add (m n : Nat) (s : State) :
    s.after program (m + n) = (s.after program m).after program n := by
  rw [Nat.add_comm]
  exact Function.iterate_add_apply ..

theorem next_of_isFinished {s : State} (h : s.isFinished program = true) : s.next program = s := by
  rw [next, step_of_isFinished h]

theorem after_of_isFinished {s : State} (h : s.isFinished program = true) (n : Nat) :
    s.after program n = s := by
  induction n with
  | zero => rfl
  | succ n ih => rw [after_succ, next_of_isFinished h, ih]

/-- Once past the end, a program stays where it is. -/
theorem after_eq_of_le {s : State} {m n : Nat} (h : (s.after program m).isFinished program = true)
    (hle : m ≤ n) : s.after program n = s.after program m := by
  obtain ⟨k, rfl⟩ := Nat.exists_eq_add_of_le hle
  rw [after_add, after_of_isFinished h]

/-- A state inside the program gets past the end only by a step. -/
theorem exists_succ_of_isFinished_after {s : State} {n : Nat} (hpc : s.pc < program.length)
    (h : (s.after program n).isFinished program = true) :
    ∃ k, n = k + 1 ∧ ((s.next program).after program k).isFinished program = true := by
  cases n with
  | zero =>
    rw [after_zero, isFinished_iff] at h
    omega
  | succ k => exact ⟨k, rfl, by rwa [after_succ] at h⟩

/-- A step in front of the instruction `i` carries out `i`. -/
theorem next_of_getElem? {s : State} {i : Instruction} (h : program[s.pc]? = some i) :
    s.next program = (s.execute program.length i).1 := by
  rw [next, step, h]

end State

/-- The last state of a run is the state after as many steps as the run was allowed. -/
theorem fst_runFrom (program : Program) (s : State) (events : Array Event) (gas : Nat) :
    (runFrom program s events gas).map Prod.fst =
      if (s.after program gas).isFinished program then some (s.after program gas) else none := by
  induction gas generalizing s events with
  | zero =>
    rw [runFrom, State.after_zero]
    split <;> rfl
  | succ gas ih =>
    by_cases h : s.isFinished program = true
    · rw [runFrom_of_isFinished h, State.after_of_isFinished h, if_pos h]
      rfl
    · rw [runFrom_succ_of_not_isFinished (Bool.eq_false_iff.mpr h), ih, State.after_succ]

theorem run_of_isFinished {s : State} {gas : Nat}
    (h : (s.after program gas).isFinished program = true) :
    ∃ events, run program s gas = .ok (s.after program gas, events) := by
  have hfst := fst_runFrom program s #[] gas
  rw [if_pos h] at hfst
  obtain ⟨⟨last, events⟩, hrun, rfl⟩ := Option.map_eq_some_iff.mp hfst
  exact ⟨events, by rw [run, hrun]⟩

theorem run_of_not_isFinished {s : State} {gas : Nat}
    (h : ¬ (s.after program gas).isFinished program = true) :
    run program s gas = .error ⟨gas⟩ := by
  have hfst := fst_runFrom program s #[] gas
  rw [if_neg h] at hfst
  rw [run, Option.map_eq_none_iff.mp hfst]

/-- **A run ends where the steps lead.** -/
theorem run_eq_ok_iff {s final : State} {gas : Nat} :
    (∃ events, run program s gas = .ok (final, events)) ↔
      (s.after program gas).isFinished program = true ∧ final = s.after program gas := by
  constructor
  · rintro ⟨events, hrun⟩
    by_cases h : (s.after program gas).isFinished program = true
    · obtain ⟨events', hrun'⟩ := run_of_isFinished h
      rw [hrun'] at hrun
      cases hrun
      exact ⟨h, rfl⟩
    · rw [run_of_not_isFinished h] at hrun
      cases hrun
  · rintro ⟨h, rfl⟩
    exact run_of_isFinished h

end Stepwise
