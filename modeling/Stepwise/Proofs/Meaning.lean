import Stepwise.Proofs.Iteration
import Stepwise.Proofs.Layout

/-!
# What a flat program means

Statements have a meaning of their own, in which there are no indices, no stack and no budget. A
loop tests its condition, and if the condition is true it runs its body and then itself again.
`Stmt.Runs` says so. It is a relation because a loop need not come to an end: statements that do
not are related to nothing.

The machine does the same with jumps, and the theorem of this module is that it does exactly the
same. Both directions are about a piece of a program that stands somewhere in it, with any stack:
the stack is where the loops around the piece are remembered, and the piece gives it back.

From the meaning to the machine the induction is on the derivation. Back from the machine it is on
the number of steps, and the only thing known of the run is that it gets past the end of the
program at some time. So it has to be shown that it cannot get there without passing the end of
the piece.

## Main definitions

* `Stmt.Runs` — what statements make of a memory
* `Program.HasAt` — a piece stands at a place in a program

## Main results

* `Stmt.Runs.after` — what statements mean, the machine does
* `Stmt.runs_of_after` — what the machine gets to the end of, statements mean
-/

namespace Stepwise

/-- What statements read and change. -/
structure Memory where
  store : Store
  output : String

namespace Memory

/-- The memory after an assignment. -/
def assign (m : Memory) (target : String) (value : Expr) : Memory :=
  { m with store := m.store.insert target (value.evaluate m.store) }

/-- The memory after a `write`: a line with the texts of the arguments, joined by blanks. -/
def write (m : Memory) (args : List Expr) : Memory :=
  { m with output := m.output ++ " ".intercalate (args.map fun e =>
      (e.evaluate m.store).display) ++ "\n" }

/-- Whether a condition is true. -/
def test (m : Memory) (condition : Expr) : Bool := (condition.evaluate m.store).isTrue

/-- The memory of a machine in front of an instruction. -/
def state (m : Memory) (pc : Nat) (stack : List Nat) : State := ⟨pc, m.store, m.output, stack⟩

@[simp] theorem pc_state (m : Memory) (pc : Nat) (stack : List Nat) : (m.state pc stack).pc = pc :=
  rfl

end Memory

/-- Statements make `m'` of `m`. -/
inductive Stmt.Runs : List Stmt → Memory → Memory → Prop where
  | done (m : Memory) : Runs [] m m
  | assign {target : String} {value : Expr} {rest : List Stmt} {m m' : Memory}
      (behind : Runs rest (m.assign target value) m') : Runs (.assign target value :: rest) m m'
  | write {args : List Expr} {rest : List Stmt} {m m' : Memory}
      (behind : Runs rest (m.write args) m') : Runs (.write args :: rest) m m'
  /-- The condition of a loop is false. -/
  | leave {condition : Expr} {body rest : List Stmt} {m m' : Memory}
      (hfalse : m.test condition = false) (behind : Runs rest m m') :
      Runs (.loop condition body :: rest) m m'
  /-- The condition of a loop is true, and behind the body comes the loop again. -/
  | enter {condition : Expr} {body rest : List Stmt} {m mid m' : Memory}
      (htrue : m.test condition = true) (inside : Runs body m mid)
      (again : Runs (.loop condition body :: rest) mid m') :
      Runs (.loop condition body :: rest) m m'

/-! ### Pieces of a program -/

namespace Program

/-- The instructions `piece` stand in the program from `base` on. -/
def HasAt (program : Program) (base : Nat) (piece : Program) : Prop := piece <+: program.drop base

variable {program piece : Program} {base : Nat} {i : Instruction}

theorem HasAt.head (h : program.HasAt base (i :: piece)) : program[base]? = some i := by
  obtain ⟨behind, hdrop⟩ := h
  rw [← List.head?_drop, ← hdrop]
  rfl

theorem HasAt.lt (h : program.HasAt base (i :: piece)) : base < program.length :=
  (List.getElem?_eq_some_iff.mp h.head).1

theorem HasAt.tail (h : program.HasAt base (i :: piece)) : program.HasAt (base + 1) piece := by
  obtain ⟨behind, hdrop⟩ := h
  refine ⟨behind, ?_⟩
  rw [← List.tail_drop, ← hdrop]
  rfl

theorem HasAt.left {front : Program} (h : program.HasAt base (front ++ piece)) :
    program.HasAt base front :=
  (List.prefix_append ..).trans h

theorem HasAt.right {front : Program} (h : program.HasAt base (front ++ piece)) :
    program.HasAt (base + front.length) piece := by
  obtain ⟨behind, hdrop⟩ := h
  refine ⟨behind, ?_⟩
  rw [← List.drop_drop, ← hdrop, List.append_assoc, List.drop_left]

end Program

/-! ### Single steps -/

section

variable {program : Program} {m : Memory} {pc : Nat} (stack : List Nat)

theorem Memory.next_assign {target : String} {value : Expr}
    (h : program[pc]? = some (.assign target value)) :
    (m.state pc stack).next program = (m.assign target value).state (pc + 1) stack := by
  rw [State.next_of_getElem? h]
  rfl

theorem Memory.next_write {args : List Expr} (h : program[pc]? = some (.write args)) :
    (m.state pc stack).next program = (m.write args).state (pc + 1) stack := by
  rw [State.next_of_getElem? h]
  rfl

theorem Memory.next_loop_of_true {condition : Expr} {stop : Nat}
    (h : program[pc]? = some (.loop condition stop)) (htrue : m.test condition = true) :
    (m.state pc stack).next program = m.state (pc + 1) (pc :: stack) := by
  rw [State.next_of_getElem? h, State.execute]
  exact congrArg Prod.fst (if_pos htrue)

theorem Memory.next_loop_of_false {condition : Expr} {stop : Nat}
    (h : program[pc]? = some (.loop condition stop)) (hfalse : m.test condition = false)
    (hstop : stop < program.length) :
    (m.state pc stack).next program = m.state (stop + 1) stack := by
  have hmin : min (stop + 1) program.length = stop + 1 := Nat.min_eq_left hstop
  have hnot : ¬ m.test condition = true := by rw [hfalse]; decide
  rw [State.next_of_getElem? h, State.execute, hmin]
  exact congrArg Prod.fst (if_neg hnot)

theorem Memory.next_loopEnd {start : Nat} (h : program[pc]? = some .loopEnd) :
    (m.state pc (start :: stack)).next program = m.state start stack := by
  rw [State.next_of_getElem? h]
  rfl

end

/-! ### From the meaning to the machine -/

namespace Stmt

variable {program : Program} {m m' : Memory} {stmts : List Stmt}

/-- **What statements mean, the machine does.** It gets from the beginning of their instructions
to the end, and the stack is there what it was before. -/
theorem Runs.after (h : Runs stmts m m') (base : Nat) (stack : List Nat)
    (hat : program.HasAt base (Program.placed base stmts)) :
    ∃ n, (m.state base stack).after program n = m'.state (base + sizes stmts) stack := by
  induction h generalizing base stack with
  | done m => exact ⟨0, by rw [sizes_nil]; rfl⟩
  | @assign target value rest _ _ _ ih =>
    rw [Program.placed_assign] at hat
    obtain ⟨n, hn⟩ := ih (base + 1) stack hat.tail
    refine ⟨n + 1, ?_⟩
    rw [State.after_succ, Memory.next_assign stack hat.head, hn, sizes_assign]
    congr 1
    omega
  | @write args rest _ _ _ ih =>
    rw [Program.placed_write] at hat
    obtain ⟨n, hn⟩ := ih (base + 1) stack hat.tail
    refine ⟨n + 1, ?_⟩
    rw [State.after_succ, Memory.next_write stack hat.head, hn, sizes_write]
    congr 1
    omega
  | @leave condition body rest _ _ hfalse _ ih =>
    rw [Program.placed_loop] at hat
    have hend := hat.tail.right
    rw [Program.length_placed] at hend
    obtain ⟨n, hn⟩ := ih _ stack hend.tail
    refine ⟨n + 1, ?_⟩
    rw [State.after_succ, Memory.next_loop_of_false stack hat.head hfalse hend.lt, hn, sizes_loop]
    congr 1
    omega
  | @enter condition body rest _ _ _ htrue _ _ ihbody ihagain =>
    have hloop := hat
    rw [Program.placed_loop] at hat
    have hend := hat.tail.right
    rw [Program.length_placed] at hend
    obtain ⟨k, hk⟩ := ihbody (base + 1) (base :: stack) hat.tail.left
    obtain ⟨n, hn⟩ := ihagain base stack hloop
    refine ⟨(k + (n + 1)) + 1, ?_⟩
    rw [State.after_succ, Memory.next_loop_of_true stack hat.head htrue, State.after_add, hk,
      State.after_succ, Memory.next_loopEnd stack hend.head, hn]

/-! ### From the machine to the meaning -/

/-- **What the machine gets to the end of, statements mean.** A run that is past the end of the
program after `n` steps has passed the end of every piece that it entered. -/
theorem runs_of_after (n : Nat) (base : Nat) (stack : List Nat)
    (hat : program.HasAt base (Program.placed base stmts))
    (hfin : ((m.state base stack).after program n).isFinished program = true) :
    ∃ k ≤ n, ∃ m', Runs stmts m m' ∧
      (m.state base stack).after program k = m'.state (base + sizes stmts) stack := by
  induction n using Nat.strongRecOn generalizing stmts m base stack with
  | ind n ih =>
    cases stmts with
    | nil => exact ⟨0, Nat.zero_le n, m, .done m, by rw [sizes_nil]; rfl⟩
    | cons s rest =>
      cases s with
      | assign target value =>
        rw [Program.placed_assign] at hat
        obtain ⟨n, rfl, hlater⟩ := State.exists_succ_of_isFinished_after hat.lt hfin
        rw [Memory.next_assign stack hat.head] at hlater
        obtain ⟨k, hk, m', hruns, hafter⟩ := ih n (Nat.lt_succ_self n) _ _ hat.tail hlater
        refine ⟨k + 1, Nat.succ_le_succ hk, m', .assign hruns, ?_⟩
        rw [State.after_succ, Memory.next_assign stack hat.head, hafter, sizes_assign]
        congr 1
        omega
      | write args =>
        rw [Program.placed_write] at hat
        obtain ⟨n, rfl, hlater⟩ := State.exists_succ_of_isFinished_after hat.lt hfin
        rw [Memory.next_write stack hat.head] at hlater
        obtain ⟨k, hk, m', hruns, hafter⟩ := ih n (Nat.lt_succ_self n) _ _ hat.tail hlater
        refine ⟨k + 1, Nat.succ_le_succ hk, m', .write hruns, ?_⟩
        rw [State.after_succ, Memory.next_write stack hat.head, hafter, sizes_write]
        congr 1
        omega
      | loop condition body =>
        have hloop := hat
        rw [Program.placed_loop] at hat
        have hend := hat.tail.right
        rw [Program.length_placed] at hend
        obtain ⟨n, rfl, hlater⟩ := State.exists_succ_of_isFinished_after hat.lt hfin
        cases htest : m.test condition with
        | false =>
          have hnext := Memory.next_loop_of_false stack hat.head htest hend.lt
          rw [hnext] at hlater
          obtain ⟨k, hk, m', hruns, hafter⟩ := ih n (Nat.lt_succ_self n) _ _ hend.tail hlater
          refine ⟨k + 1, Nat.succ_le_succ hk, m', .leave htest hruns, ?_⟩
          rw [State.after_succ, hnext, hafter, sizes_loop]
          congr 1
          omega
        | true =>
          -- The body is passed first; at its end the run is inside the program, so it goes on
          -- with the loop, and with fewer steps left.
          have hnext := Memory.next_loop_of_true stack hat.head htest
          rw [hnext] at hlater
          obtain ⟨k, hk, mid, hbody, hafter⟩ := ih n (Nat.lt_succ_self n) _ _ hat.tail.left hlater
          obtain ⟨r, rfl⟩ := Nat.exists_eq_add_of_le hk
          rw [State.after_add, hafter] at hlater
          obtain ⟨r, rfl, hagain⟩ := State.exists_succ_of_isFinished_after hend.lt hlater
          rw [Memory.next_loopEnd stack hend.head] at hagain
          obtain ⟨j, hj, m', hruns, hlast⟩ := ih r (by omega) _ _ hloop hagain
          refine ⟨k + (j + 1) + 1, by omega, m', .enter htest hbody hruns, ?_⟩
          rw [State.after_succ, hnext, State.after_add, hafter, State.after_succ,
            Memory.next_loopEnd stack hend.head, hlast]

end Stmt

/-! ### Whole programs -/

theorem Program.hasAt_ofStmts (stmts : List Stmt) :
    (ofStmts stmts).HasAt 0 (placed 0 stmts) := by
  rw [ofStmts_eq_placed]
  exact List.prefix_refl _

theorem Program.length_ofStmts (stmts : List Stmt) : (ofStmts stmts).length = Stmt.sizes stmts := by
  rw [ofStmts_eq_placed, length_placed]

/-- **A run ends as the statements mean.** -/
theorem exists_run_eq_ok_of_runs {stmts : List Stmt} {m m' : Memory} (h : Stmt.Runs stmts m m') :
    ∃ gas events, run (Program.ofStmts stmts) (m.state 0 []) gas =
      .ok (m'.state (Program.ofStmts stmts).length [], events) := by
  obtain ⟨n, hn⟩ := h.after 0 [] (Program.hasAt_ofStmts stmts)
  rw [Nat.zero_add, ← Program.length_ofStmts] at hn
  have hfin : ((m.state 0 []).after (Program.ofStmts stmts) n).isFinished
      (Program.ofStmts stmts) = true := by
    rw [hn, State.isFinished_iff]
    exact Nat.le_refl _
  exact ⟨n, run_eq_ok_iff.mpr ⟨hfin, hn.symm⟩⟩

/-- **A run that ends, ends as the statements mean.** -/
theorem runs_of_run_eq_ok {stmts : List Stmt} {m : Memory} {gas : Nat} {final : State}
    {events : Array Event}
    (h : run (Program.ofStmts stmts) (m.state 0 []) gas = .ok (final, events)) :
    ∃ m', Stmt.Runs stmts m m' ∧ final = m'.state (Program.ofStmts stmts).length [] := by
  obtain ⟨hfin, rfl⟩ := run_eq_ok_iff.mp ⟨events, h⟩
  obtain ⟨k, hk, m', hruns, hafter⟩ :=
    Stmt.runs_of_after gas 0 [] (Program.hasAt_ofStmts stmts) hfin
  rw [Nat.zero_add, ← Program.length_ofStmts] at hafter
  refine ⟨m', hruns, ?_⟩
  rw [← hafter]
  refine State.after_eq_of_le ?_ hk
  rw [hafter, State.isFinished_iff]
  exact Nat.le_refl _

theorem Memory.state_injective {m m' : Memory} {pc : Nat} {stack : List Nat}
    (h : m.state pc stack = m'.state pc stack) : m = m' := by
  obtain ⟨store, output⟩ := m
  obtain ⟨store', output'⟩ := m'
  cases h
  rfl

/-- **Flattening preserves meaning.** Statements make `m'` of `m` if and only if some budget lets
their program run to its end from the memory `m`. The memory is then `m'`, the next instruction is
the one behind the last, and no loop is open. If the statements do not come to an end, no budget is
enough. -/
theorem runs_iff_exists_run_eq_ok (stmts : List Stmt) (m : Memory) :
    (∀ m', Stmt.Runs stmts m m' ↔ ∃ gas events,
      run (Program.ofStmts stmts) (m.state 0 []) gas =
        .ok (m'.state (Program.ofStmts stmts).length [], events)) ∧
    (∀ gas final events,
      run (Program.ofStmts stmts) (m.state 0 []) gas = .ok (final, events) →
        ∃ m', Stmt.Runs stmts m m' ∧ final = m'.state (Program.ofStmts stmts).length []) ∧
    ((¬ ∃ m', Stmt.Runs stmts m m') →
      ∀ gas, run (Program.ofStmts stmts) (m.state 0 []) gas = .error ⟨gas⟩) := by
  refine ⟨fun m' => ⟨exists_run_eq_ok_of_runs, ?_⟩, fun gas final events => runs_of_run_eq_ok,
    fun hnone gas => run_of_not_isFinished fun hfin => ?_⟩
  · rintro ⟨gas, events, h⟩
    obtain ⟨m'', hruns, hstate⟩ := runs_of_run_eq_ok h
    rw [Memory.state_injective hstate]
    exact hruns
  · obtain ⟨events, h⟩ := run_of_isFinished hfin
    obtain ⟨m', hruns, -⟩ := runs_of_run_eq_ok h
    exact hnone ⟨m', hruns⟩

end Stepwise
