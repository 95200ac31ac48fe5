import Stepwise.Machine

/-!
# Sessions

A session is a program that is run a step at a time. It keeps the state, what was done so far, and
how many steps were taken, and it takes no more than its budget allows.

Only steps on a program that has not ended count. Stepping on after the end is allowed at any
time, is logged, and costs nothing. A step that the budget does not allow changes nothing.

## Main definitions

* `Session.step` — one step
* `Session.finish` — steps to the end of the program
* `Session.reset` — back to the beginning, with the same budget
-/

namespace Stepwise

/-- A program that is run a step at a time. -/
structure Session where
  program : Program
  state : State
  /-- What was done since the beginning. -/
  log : Array Event
  /-- The steps taken since the beginning. -/
  steps : Nat
  /-- The budget of steps. -/
  limit : Nat

namespace Session

/-- A session at the beginning of a program. -/
def ofProgram (program : Program) : Session := ⟨program, .initial, #[], 0, defaultGas⟩

/-- The session with another budget. The steps taken still count. -/
def withLimit (s : Session) (limit : Nat) : Session := { s with limit := limit }

/-- Whether the program has ended. -/
def isFinished (s : Session) : Bool := s.state.isFinished s.program

/-- The session after a step that is charged with `cost` steps, and what was done. -/
def advance (s : Session) (cost : Nat) : Session × Event :=
  let after := s.state.step s.program
  ({ s with state := after.1, log := s.log.push after.2, steps := s.steps + cost }, after.2)

/-- One step: the session after it and what was done, or the failure that left the session as it
was. -/
def step (s : Session) : Except GasExhausted (Session × Event) :=
  if s.isFinished then .ok (s.advance 0)
  else if s.limit ≤ s.steps then .error ⟨s.limit⟩
  else .ok (s.advance 1)

@[simp] theorem program_advance (s : Session) (cost : Nat) :
    (s.advance cost).1.program = s.program := rfl

@[simp] theorem limit_advance (s : Session) (cost : Nat) : (s.advance cost).1.limit = s.limit := rfl

@[simp] theorem state_advance (s : Session) (cost : Nat) :
    (s.advance cost).1.state = s.state.next s.program := rfl

@[simp] theorem log_advance (s : Session) (cost : Nat) :
    (s.advance cost).1.log = s.log.push (s.state.event s.program) := rfl

@[simp] theorem steps_advance (s : Session) (cost : Nat) :
    (s.advance cost).1.steps = s.steps + cost := rfl

/-- At most `gas` steps, up to the end of the program. -/
def finishWithin (s : Session) : Nat → Session
  | 0 => s
  | gas + 1 => if s.isFinished then s else (s.advance 1).1.finishWithin gas

/-- Steps to the end of the program as long as the budget allows: the session after it, and the
failure if the program has not ended then. -/
def finish (s : Session) : Session × Option GasExhausted :=
  let after := s.finishWithin (s.limit - s.steps)
  (after, if after.isFinished then none else some ⟨s.limit⟩)

/-- Back to the beginning. -/
def reset (s : Session) : Session := { s with state := .initial, log := #[], steps := 0 }

/-- What was written so far. -/
def output (s : Session) : String := s.state.output

end Session

end Stepwise
