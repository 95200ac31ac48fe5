import Stepwise.Compilation
import Stepwise.Proofs.Matching

/-!
# The loops around the next instruction

A machine that started at the beginning of a program made of tokens always knows where it is: its
stack holds the heads of the loops that enclose the next instruction, the innermost on top, and
nothing else. Where that is known, no end of a loop is ever met with an empty stack, and a program
that has ended has no loop left open.

What has to be shown of a step is how the enclosing loops change from one index to another, and
that follows from the matching of heads and ends alone. Going on by one changes nothing, into a
loop adds its head, and past the end of a loop there is what was there in front of its head.

## Main definitions

* `Program.enclosing` — the loops around an index
* `State.Follows` — the stack holds the loops around the next instruction
* `Stmt.nesting` — how deep loops stand in loops

## Main results

* `State.Follows.next` — a step keeps the stack in order
* `stack_eq_enclosing` — in a program made of tokens it always is
-/

namespace Stepwise

namespace Program

/-- Whether the loop with its head at `head` encloses the index `pc`. The index of its end is still
inside. -/
def encloses (program : Program) (pc head : Nat) : Bool :=
  match program[head]? with
  | some (.loop _ last) => decide (head < pc ∧ pc ≤ last)
  | _ => false

/-- The heads of the loops around an index, outermost first. -/
def enclosing (program : Program) (pc : Nat) : List Nat :=
  (List.range program.length).filter (program.encloses pc)

variable {program : Program} {pc head last i e : Nat}

theorem encloses_iff :
    program.encloses pc i = true ↔ ∃ e, program.LoopAt i e ∧ i < pc ∧ pc ≤ e := by
  rw [encloses]
  constructor
  · intro h
    split at h
    · next condition last hi => exact ⟨last, ⟨condition, hi⟩, of_decide_eq_true h⟩
    · cases h
  · rintro ⟨e, ⟨condition, hi⟩, hinside⟩
    rw [hi]
    exact decide_eq_true hinside

theorem LoopAt.encloses_iff (h : program.LoopAt i e) :
    program.encloses pc i = true ↔ i < pc ∧ pc ≤ e := by
  rw [Program.encloses_iff]
  constructor
  · rintro ⟨e', h', hinside⟩
    rwa [h.last_unique h']
  · exact fun hinside => ⟨e, h, hinside⟩

theorem mem_enclosing : i ∈ program.enclosing pc ↔ program.encloses pc i = true := by
  rw [enclosing, List.mem_filter, List.mem_range, and_iff_right_iff_imp, Program.encloses_iff]
  rintro ⟨e, h, -⟩
  exact h.lt_length

theorem enclosing_congr {pc' : Nat}
    (h : ∀ i, program.encloses pc i = true ↔ program.encloses pc' i = true) :
    program.enclosing pc = program.enclosing pc' :=
  List.filter_congr fun i _ => Bool.eq_iff_iff.mpr (h i)

/-- Where a loop encloses an index, and no later loop does, the others are those around its head. -/
theorem enclosing_eq_concat (hhead : program.encloses pc head = true)
    (hbefore : ∀ i, i < head → (program.encloses pc i = true ↔ program.encloses head i = true))
    (hbehind : ∀ i, head < i → ¬ program.encloses pc i = true) :
    program.enclosing pc = program.enclosing head ++ [head] := by
  have hlt : head < program.length := List.mem_range.mp
    (List.mem_filter.mp (mem_enclosing.mpr hhead)).1
  obtain ⟨n, hn⟩ := Nat.exists_eq_add_of_lt hlt
  have hself : ∀ i, head ≤ i → ¬ program.encloses head i = true := by
    intro i hi h
    obtain ⟨e, -, hlt, -⟩ := Program.encloses_iff.mp h
    omega
  have hfront : (List.range head).filter (program.encloses pc) =
      (List.range head).filter (program.encloses head) :=
    List.filter_congr fun i hi => Bool.eq_iff_iff.mpr (hbefore i (List.mem_range.mp hi))
  rw [enclosing, enclosing, hn, Nat.add_assoc, List.range_add, List.range_succ_eq_map,
    List.map_cons, Nat.add_zero, List.filter_append, List.filter_append,
    List.filter_cons_of_pos hhead, List.filter_cons_of_neg (hself head (Nat.le_refl head)), hfront,
    List.append_assoc]
  refine congrArg _ ?_
  rw [List.filter_eq_nil_iff.mpr, List.filter_eq_nil_iff.mpr, List.nil_append]
  · simp only [List.forall_mem_map]
    intro i _
    exact hself _ (Nat.le_add_right ..)
  · simp only [List.forall_mem_map]
    intro i _
    exact hbehind _ (Nat.lt_add_of_pos_right (Nat.succ_pos i))

variable (h : program.Matched 0 program.length)

include h

/-- Going on by one changes nothing, unless a loop begins or ends there. -/
theorem Matched.enclosing_succ {instruction : Instruction} (hi : program[pc]? = some instruction)
    (hloop : ∀ condition stop, instruction ≠ .loop condition stop)
    (hend : instruction ≠ .loopEnd) : program.enclosing (pc + 1) = program.enclosing pc := by
  refine enclosing_congr fun i => ?_
  rw [encloses_iff, encloses_iff]
  refine exists_congr fun e => and_congr_right fun hhead => ?_
  have hne : i ≠ pc := by
    rintro rfl
    obtain ⟨condition, hhead⟩ := hhead
    rw [hhead, Option.some.injEq] at hi
    exact hloop _ _ hi.symm
  have hne' : e ≠ pc := by
    rintro rfl
    have hlast := (h.last (Nat.zero_le i) hhead.lt_length hhead).2.2
    rw [hlast, Option.some.injEq] at hi
    exact hend hi.symm
  omega

/-- Behind the head of a loop, the loop is around. -/
theorem Matched.enclosing_succ_head (hloop : program.LoopAt head last) :
    program.enclosing (head + 1) = program.enclosing head ++ [head] := by
  obtain ⟨hlt, -, -⟩ := h.last (Nat.zero_le head) hloop.lt_length hloop
  refine enclosing_eq_concat ?_ (fun i hi => ?_) fun i hi hinside => ?_
  · rw [hloop.encloses_iff]
    omega
  · rw [encloses_iff, encloses_iff]
    refine exists_congr fun e => and_congr_right fun hhead => ?_
    have hne : e ≠ head := fun he => hloop.ne_of_loopEnd
      (h.last (Nat.zero_le i) hhead.lt_length hhead).2.2 he.symm
    omega
  · obtain ⟨e, -, hpc, -⟩ := encloses_iff.mp hinside
    omega

/-- At its end, the loop is the innermost one around. -/
theorem Matched.enclosing_last (hloop : program.LoopAt head last) :
    program.enclosing last = program.enclosing head ++ [head] := by
  obtain ⟨hlt, -, -⟩ := h.last (Nat.zero_le head) hloop.lt_length hloop
  refine enclosing_eq_concat ?_ (fun i hi => ?_) fun i hi hinside => ?_
  · rw [hloop.encloses_iff]
    exact ⟨hlt, Nat.le_refl last⟩
  · rw [encloses_iff, encloses_iff]
    refine exists_congr fun e => and_congr_right fun hhead => ?_
    constructor
    · rintro ⟨-, hle⟩
      omega
    · rintro ⟨-, hle⟩
      have hne : e ≠ head := fun he => hloop.ne_of_loopEnd
        (h.last (Nat.zero_le i) hhead.lt_length hhead).2.2 he.symm
      have hinside := h.inside (Nat.zero_le i) hhead.lt_length hhead hloop hi (by omega)
      omega
  · obtain ⟨e, hhead, hpc, hle⟩ := encloses_iff.mp hinside
    have hends := h.inside (Nat.zero_le head) hloop.lt_length hloop hhead hi hpc
    omega

/-- Past its end, there is what was there in front of its head. -/
theorem Matched.enclosing_succ_last (hloop : program.LoopAt head last) :
    program.enclosing (last + 1) = program.enclosing head := by
  obtain ⟨hlt, -, hend⟩ := h.last (Nat.zero_le head) hloop.lt_length hloop
  refine enclosing_congr fun i => ?_
  rw [encloses_iff, encloses_iff]
  refine exists_congr fun e => and_congr_right fun hhead => ?_
  have hne : i ≠ last := hhead.ne_of_loopEnd hend
  rcases Nat.lt_trichotomy i head with hbefore | rfl | hbehind
  · have hne' : e ≠ head := fun he => hloop.ne_of_loopEnd
      (h.last (Nat.zero_le i) hhead.lt_length hhead).2.2 he.symm
    have hinside := h.inside (Nat.zero_le i) hhead.lt_length hhead hloop hbefore
    omega
  · rw [← hloop.last_unique hhead]
    omega
  · have hinside := h.inside (Nat.zero_le head) hloop.lt_length hloop hhead hbehind
    omega

/-- Nothing is around the end of the program. -/
theorem Matched.enclosing_length : program.enclosing program.length = [] := by
  refine List.filter_eq_nil_iff.mpr fun i _ hinside => ?_
  obtain ⟨e, hhead, -, hle⟩ := encloses_iff.mp hinside
  have hlast := (h.last (Nat.zero_le i) hhead.lt_length hhead).2.1
  omega

end Program

/-! ### Steps -/

namespace State

open Program

variable {program : Program} {s : State}

/-- The next instruction is one of the program or its end, and the stack holds the loops around
it. -/
structure Follows (program : Program) (s : State) : Prop where
  pc_le : s.pc ≤ program.length
  stack : s.stack = (program.enclosing s.pc).reverse

theorem follows_initial (program : Program) : initial.Follows program := by
  refine ⟨Nat.zero_le _, ?_⟩
  have hnone : program.enclosing 0 = [] := by
    refine List.filter_eq_nil_iff.mpr fun i _ hinside => ?_
    obtain ⟨e, -, hlt, -⟩ := encloses_iff.mp hinside
    exact Nat.not_lt_zero i hlt
  show [] = (program.enclosing 0).reverse
  rw [hnone, List.reverse_nil]

/-- At the end of a loop, its head is on top of the stack. -/
theorem Follows.exists_head (hs : s.Follows program) (h : program.Matched 0 program.length)
    (hend : program[s.pc]? = some .loopEnd) :
    ∃ head stack, s.stack = head :: stack ∧ program.LoopAt head s.pc ∧
      stack = (program.enclosing head).reverse := by
  have hlt : s.pc < program.length := (List.getElem?_eq_some_iff.mp hend).1
  obtain ⟨head, -, -, hhead⟩ := h.head (Nat.zero_le _) hlt hend
  refine ⟨head, _, ?_, hhead, rfl⟩
  rw [hs.stack, h.enclosing_last hhead, List.reverse_concat]

theorem next_loopEnd {head : Nat} {stack : List Nat} (hend : program[s.pc]? = some .loopEnd)
    (hstack : s.stack = head :: stack) :
    s.next program = { s with pc := head, stack := stack } := by
  rw [next_of_getElem? hend, execute, hstack]

/-- **A step keeps the stack in order.** -/
theorem Follows.next (hs : s.Follows program) (h : program.Matched 0 program.length) :
    (s.next program).Follows program := by
  cases hi : program[s.pc]? with
  | none =>
    rw [next_of_isFinished ((isFinished_iff ..).mpr (List.getElem?_eq_none_iff.mp hi))]
    exact hs
  | some instruction =>
    have hlt : s.pc < program.length := (List.getElem?_eq_some_iff.mp hi).1
    cases instruction with
    | loop condition last =>
      have hloop : program.LoopAt s.pc last := ⟨condition, hi⟩
      obtain ⟨-, hlast, -⟩ := h.last (Nat.zero_le _) hlt hloop
      rw [next_of_getElem? hi, execute]
      split
      · refine ⟨hlt, ?_⟩
        show s.pc :: s.stack = (program.enclosing (s.pc + 1)).reverse
        rw [h.enclosing_succ_head hloop, List.reverse_concat, hs.stack]
      · have hmin : min (last + 1) program.length = last + 1 := Nat.min_eq_left hlast
        refine ⟨Nat.min_le_right .., ?_⟩
        show s.stack = (program.enclosing (min (last + 1) program.length)).reverse
        rw [hmin, h.enclosing_succ_last hloop, hs.stack]
    | loopEnd =>
      obtain ⟨head, stack, hstack, hhead, henclosing⟩ := hs.exists_head h hi
      rw [next_loopEnd hi hstack]
      exact ⟨Nat.le_of_lt hhead.lt_length, henclosing⟩
    | assign target value =>
      rw [next_of_getElem? hi]
      refine ⟨hlt, ?_⟩
      show s.stack = (program.enclosing (s.pc + 1)).reverse
      rw [h.enclosing_succ hi (fun _ _ => Instruction.noConfusion) Instruction.noConfusion,
        hs.stack]
    | write args =>
      rw [next_of_getElem? hi]
      refine ⟨hlt, ?_⟩
      show s.stack = (program.enclosing (s.pc + 1)).reverse
      rw [h.enclosing_succ hi (fun _ _ => Instruction.noConfusion) Instruction.noConfusion,
        hs.stack]

theorem Follows.after (hs : s.Follows program) (h : program.Matched 0 program.length) (n : Nat) :
    (s.after program n).Follows program := by
  induction n generalizing s with
  | zero => exact hs
  | succ n ih =>
    rw [after_succ]
    exact ih (hs.next h)

end State

/-! ### How deep loops stand in loops -/

namespace Stmt

mutual

/-- How many loops a statement nests in one another. -/
def nestingOf : Stmt → Nat
  | .loop _ body => nesting body + 1
  | .assign .. => 0
  | .write _ => 0

/-- How many loops a list of statements nests in one another. -/
def nesting : List Stmt → Nat
  | [] => 0
  | s :: rest => max (nestingOf s) (nesting rest)

end

theorem nesting_assign (target : String) (value : Expr) (rest : List Stmt) :
    nesting (.assign target value :: rest) = nesting rest := by
  rw [nesting, nestingOf, Nat.zero_max]

theorem nesting_write (args : List Expr) (rest : List Stmt) :
    nesting (.write args :: rest) = nesting rest := by
  rw [nesting, nestingOf, Nat.zero_max]

theorem nesting_loop (condition : Expr) (body rest : List Stmt) :
    nesting (.loop condition body :: rest) = max (nesting body + 1) (nesting rest) := by
  rw [nesting, nestingOf]

end Stmt

namespace Program

variable {program : Program} {pc : Nat}

/-- No more loops of a list of statements are around an index than stand in one another. -/
theorem HasAt.countP_encloses_le {base : Nat} {stmts : List Stmt}
    (h : program.HasAt base (placed base stmts)) :
    (List.range' base (Stmt.sizes stmts)).countP (program.encloses pc) ≤ Stmt.nesting stmts := by
  induction stmts using Stmt.list_induction generalizing base with
  | nil =>
    rw [Stmt.sizes_nil, List.range'_zero, List.countP_nil]
    exact Nat.zero_le _
  | assign target value rest ih =>
    rw [placed_assign] at h
    have hplain : ¬ program.encloses pc base = true := by
      rw [encloses, h.head]
      exact Bool.false_ne_true
    rw [Stmt.sizes_assign, List.range'_succ, List.countP_cons_of_neg hplain, Stmt.nesting_assign]
    exact ih h.tail
  | write args rest ih =>
    rw [placed_write] at h
    have hplain : ¬ program.encloses pc base = true := by
      rw [encloses, h.head]
      exact Bool.false_ne_true
    rw [Stmt.sizes_write, List.range'_succ, List.countP_cons_of_neg hplain, Stmt.nesting_write]
    exact ih h.tail
  | loop condition body rest ihbody ihrest =>
    rw [placed_loop] at h
    have hend := h.tail.right
    rw [length_placed] at hend
    have hbody := ihbody h.tail.left
    have hrest := ihrest hend.tail
    have hmatched := h.tail.left.matched
    have hhead : program.LoopAt base (base + 1 + Stmt.sizes body) := ⟨condition, h.head⟩
    have hlast : ¬ program.encloses pc (base + 1 + Stmt.sizes body) = true := by
      rw [encloses, hend.head]
      exact Bool.false_ne_true
    have hsplit : List.range' base (Stmt.sizes body + Stmt.sizes rest + 2) =
        base :: (List.range' (base + 1) (Stmt.sizes body) ++
          (base + 1 + Stmt.sizes body) ::
            List.range' (base + 1 + Stmt.sizes body + 1) (Stmt.sizes rest)) := by
      rw [← List.range'_succ, List.range'_append_1, ← List.range'_succ]
      rfl
    rw [Stmt.sizes_loop, hsplit, List.countP_cons, List.countP_append,
      List.countP_cons_of_neg hlast, Stmt.nesting_loop]
    -- Either the index is inside the loop, and nothing behind the loop is around it, or it is not,
    -- and nothing of the loop is.
    by_cases hinside : base < pc ∧ pc ≤ base + 1 + Stmt.sizes body
    · have hnone : (List.range' (base + 1 + Stmt.sizes body + 1) (Stmt.sizes rest)).countP
          (program.encloses pc) = 0 := by
        refine List.countP_eq_zero.mpr fun i hi hencloses => ?_
        obtain ⟨e, -, hlt, -⟩ := encloses_iff.mp hencloses
        rw [List.mem_range'_1] at hi
        omega
      rw [hnone, if_pos (hhead.encloses_iff.mpr hinside)]
      omega
    · have hnone : (List.range' (base + 1) (Stmt.sizes body)).countP (program.encloses pc) = 0 := by
        refine List.countP_eq_zero.mpr fun i hi hencloses => ?_
        obtain ⟨e, hloop, hlt, hle⟩ := encloses_iff.mp hencloses
        rw [List.mem_range'_1] at hi
        have hends := (hmatched.last hi.1 hi.2 hloop).2.1
        omega
      rw [hnone, if_neg (mt hhead.encloses_iff.mp hinside)]
      omega

theorem length_enclosing_le (stmts : List Stmt) (pc : Nat) :
    ((ofStmts stmts).enclosing pc).length ≤ Stmt.nesting stmts := by
  rw [enclosing, ← List.countP_eq_length_filter, List.range_eq_range', length_ofStmts]
  exact (hasAt_ofStmts stmts).countP_encloses_le

end Program

/-- **The stack holds the loops around the next instruction.** After any number of steps of a
program made of tokens, be they accepted or not, the next instruction is one of the program or its
end, and the stack, read from the bottom, lists the heads of the loops that enclose it. So an end of
a loop always finds its own head on top, there are never more heads than loops stand in one another,
and behind the end of the program no loop is open. -/
theorem stack_eq_enclosing (tokens : List Token) (n : Nat) :
    let program := Program.ofTokens tokens
    let s := State.initial.after program n
    s.pc ≤ program.length ∧
    s.stack.reverse = program.enclosing s.pc ∧
    (program[s.pc]? = some .loopEnd → ∃ head stack, s.stack = head :: stack ∧
      program.LoopAt head s.pc ∧ s.next program = { s with pc := head, stack := stack }) ∧
    s.stack.length ≤ Stmt.nesting (Stmt.ofTokens tokens) ∧
    (s.isFinished program = true → s.pc = program.length ∧ s.stack = []) := by
  intro program s
  have hmatched : program.Matched 0 program.length :=
    Program.matched_ofStmts (Stmt.ofTokens tokens)
  have hs : s.Follows program := (State.follows_initial program).after hmatched n
  refine ⟨hs.pc_le, ?_, fun hend => ?_, ?_, fun hfinished => ?_⟩
  · rw [hs.stack, List.reverse_reverse]
  · obtain ⟨head, stack, hstack, hhead, -⟩ := hs.exists_head hmatched hend
    exact ⟨head, stack, hstack, hhead, State.next_loopEnd hend hstack⟩
  · rw [hs.stack, List.length_reverse]
    exact Program.length_enclosing_le (Stmt.ofTokens tokens) s.pc
  · have hpc : s.pc = program.length :=
      Nat.le_antisymm hs.pc_le ((State.isFinished_iff ..).mp hfinished)
    refine ⟨hpc, ?_⟩
    rw [hs.stack, hpc, hmatched.enclosing_length, List.reverse_nil]

end Stepwise
