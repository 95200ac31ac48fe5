import Stepwise.Instruction
import Stepwise.Store

/-!
# Running a program

A state knows the index of the next instruction, the store, the output, and a stack of the loop
heads to go back to. A step carries out one instruction, and answers with the state after it and
an event that says what was done. Steps do not fail: past the end of the program a step does
nothing and says so.

A loop head whose condition is true pushes its own index, and the end of a loop goes back to the
index on top. If the condition is false, the head goes on behind its end. States and programs can
also be made by hand, so nothing is taken for granted about the stack or about where a head
points: with an empty stack the end of a loop goes on to the next instruction, and no jump leads
further than the end of the program.

Only a run can fail, by using up its budget of steps.

## Main definitions

* `Expr.evaluate` — the value of an expression
* `Event` — what a step did, and its text in a trace
* `State.step` — one step
* `run` — steps to the end of the program, within a budget
-/

namespace Stepwise

/-- The value of an expression. -/
def Expr.evaluate (store : Store) : Expr → Value
  | number value => .number value
  | text value => .text value
  | name s => store.get s
  | binary op left right => .apply op (left.evaluate store) (right.evaluate store)

/-- A program on its way. -/
structure State where
  /-- The index of the next instruction. -/
  pc : Nat
  store : Store
  /-- What has been written, one line for each `write`. -/
  output : String
  /-- The loop heads to go back to, innermost first. -/
  stack : List Nat
deriving DecidableEq

/-- What a step did. All but the last know the index of the instruction. -/
inductive Event where
  /-- A loop was entered. -/
  | entered (index : Nat)
  /-- A loop was left. -/
  | exited (index : Nat)
  /-- The end of a loop was reached. -/
  | repeated (index : Nat)
  | assigned (index : Nat) (target : String) (value : Value)
  | wrote (index : Nat) (text : String)
  /-- The program had ended before. -/
  | ended
deriving DecidableEq

namespace Event

/-- The first line of an event: the number of the instruction, counted from one, and its name. -/
def heading (index : Nat) (name : String) : String :=
  "step " ++ toString (index + 1) ++ ": " ++ name

/-- The text of an event in a trace. -/
def text : Event → String
  | entered index => heading index "while"
  | exited index => heading index "while" ++ "\nloop exited"
  | repeated index => heading index "end-while"
  | assigned index target value =>
    heading index "assignment" ++ "\nassigned: " ++ target ++ " = " ++ value.display
  | wrote index text => heading index "write" ++ "\noutput: " ++ text
  | ended => "execution finished"

end Event

namespace State

/-- The state in which every program begins. -/
def initial : State := ⟨0, .empty, "", []⟩

instance : Inhabited State := ⟨initial⟩

/-- Whether a state is past the end of a program. -/
def isFinished (program : Program) (s : State) : Bool := program.length ≤ s.pc

@[simp] theorem isFinished_iff (program : Program) (s : State) :
    s.isFinished program = true ↔ program.length ≤ s.pc := by simp [isFinished]

/-- The text that `write` puts out for its arguments. -/
def written (store : Store) (args : List Expr) : String :=
  " ".intercalate (args.map fun e => (e.evaluate store).display)

/-- Carries out an instruction, the one at the index of the next instruction. -/
def execute (length : Nat) (s : State) : Instruction → State × Event
  | .loop condition stop =>
    if (condition.evaluate s.store).isTrue then
      ({ s with pc := s.pc + 1, stack := s.pc :: s.stack }, .entered s.pc)
    else ({ s with pc := min (stop + 1) length }, .exited s.pc)
  | .loopEnd =>
    match s.stack with
    | [] => ({ s with pc := s.pc + 1 }, .repeated s.pc)
    | head :: stack => ({ s with pc := head, stack := stack }, .repeated s.pc)
  | .assign target value =>
    let value := value.evaluate s.store
    ({ s with pc := s.pc + 1, store := s.store.insert target value }, .assigned s.pc target value)
  | .write args =>
    let text := written s.store args
    ({ s with pc := s.pc + 1, output := s.output ++ text ++ "\n" }, .wrote s.pc text)

/-- One step of a program: the state after it, and what was done. -/
def step (program : Program) (s : State) : State × Event :=
  match program[s.pc]? with
  | some i => s.execute program.length i
  | none => (s, .ended)

/-- The state after a step. -/
def next (program : Program) (s : State) : State := (s.step program).1

/-- What a step does. -/
def event (program : Program) (s : State) : Event := (s.step program).2

/-- Past the end of the program a step does nothing. -/
theorem step_of_isFinished {program : Program} {s : State} (h : s.isFinished program = true) :
    s.step program = (s, .ended) := by
  have : program[s.pc]? = none := List.getElem?_eq_none ((isFinished_iff ..).1 h)
  simp [step, this]

end State

/-- A program did not end within its budget of steps. -/
structure GasExhausted where
  limit : Nat
deriving DecidableEq

namespace GasExhausted

/-- What is said about a program that did not end. -/
def message (e : GasExhausted) : String := "gas exhausted after " ++ toString e.limit ++ " steps"

end GasExhausted

/-- The budget of steps where none is given. -/
def defaultGas : Nat := 100000

/-- Steps to the end of a program, with the events so far and the budget that is left. -/
def runFrom (program : Program) (s : State) (events : Array Event) :
    Nat → Option (State × Array Event)
  | 0 => if s.isFinished program then some (s, events) else none
  | gas + 1 =>
    if s.isFinished program then some (s, events)
    else
      let after := s.step program
      runFrom program after.1 (events.push after.2) gas

theorem runFrom_of_isFinished {program : Program} {s : State} (h : s.isFinished program = true)
    (events : Array Event) (gas : Nat) : runFrom program s events gas = some (s, events) := by
  cases gas <;> simp [runFrom, h]

theorem runFrom_zero_of_not_isFinished {program : Program} {s : State}
    (h : s.isFinished program = false) (events : Array Event) :
    runFrom program s events 0 = none := by simp [runFrom, h]

theorem runFrom_succ_of_not_isFinished {program : Program} {s : State}
    (h : s.isFinished program = false) (events : Array Event) (gas : Nat) :
    runFrom program s events (gas + 1) =
      runFrom program (s.next program) (events.push (s.event program)) gas := by
  simp [runFrom, h, State.next, State.event]

/-- Steps to the end of a program: the last state, and what was done. -/
def run (program : Program) (s : State) (gas : Nat) :
    Except GasExhausted (State × Array Event) :=
  match runFrom program s #[] gas with
  | some done => .ok done
  | none => .error ⟨gas⟩

end Stepwise
