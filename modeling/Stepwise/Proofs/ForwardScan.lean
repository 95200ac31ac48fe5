import Mathlib.Order.Bounds.Basic
import Stepwise.Proofs.Matching
import Stepwise.Proofs.Reserved

/-!
# The scan for the end of a loop

Programs can be made by hand, so the scan that looks for the end of a loop can be started anywhere
in any list of instructions: there may be ends without a head and heads without an end, and the
instruction at which it starts need not be the head of a loop. What it finds can be said without a
scan. It is the first instruction up to which, counted from behind the start, there are more ends
than heads.

Every instruction moves that difference by one at most, so a difference that is to get from below
zero to one has to pass through all values in between. That is why scans do not cross. Up to a head
that stands inside of what a scan passes over there are fewer ends than heads, and so the scan from
that head comes to its end first.

Linking goes over the program and rewrites the heads one by one. A scan does not look at where heads
point, so it makes no difference that those in front of it have been rewritten already, and linking
a program again does not change it.

## Main definitions

* `Program.ClosesAt` — more ends than heads stand behind an index and up to another
* `Program.linkInPlace` — linking head by head

## Main results

* `Program.isLeast_loopEnd` — the scan finds the first such index, or the end of the program
* `Program.loopEnd_lt_of_lt` — scans do not cross
* `Program.linkInPlace_eq_link` — linking in place is linking
* `Program.loopEnd_closes_first` — all of it, for any list of instructions
-/

namespace Stepwise

/-- How many loops an instruction closes: the head of a loop opens one. -/
def Instruction.closed : Instruction → Int
  | loop .. => -1
  | loopEnd => 1
  | _ => 0

namespace Instruction

@[simp] theorem closed_loop (condition : Expr) (stop : Nat) : (loop condition stop).closed = -1 :=
  rfl

@[simp] theorem closed_loopEnd : loopEnd.closed = 1 := rfl

@[simp] theorem closed_assign (target : String) (value : Expr) : (assign target value).closed = 0 :=
  rfl

@[simp] theorem closed_write (args : List Expr) : (write args).closed = 0 := rfl

@[simp] theorem closed_pointTo (stop : Nat) (i : Instruction) :
    (i.pointTo stop).closed = i.closed := by
  cases i <;> rfl

theorem pointTo_pointTo (stop : Nat) (i : Instruction) :
    (i.pointTo stop).pointTo stop = i.pointTo stop := by
  cases i <;> rfl

theorem closed_le_one (i : Instruction) : i.closed ≤ 1 := by
  cases i <;> simp

end Instruction

namespace Program

variable {program p q : Program} {i : Instruction} {depth : Int} {start head last stop n : Nat}

/-! ### Ends and heads -/

/-- How many more ends than heads of loops a piece of a program has. -/
def surplus (p : Program) : Int := p.countP Instruction.isLoopEnd - p.countP Instruction.isLoop

theorem surplus_nil : surplus [] = 0 := rfl

theorem surplus_cons (i : Instruction) (p : Program) : surplus (i :: p) = i.closed + surplus p := by
  have hone : surplus (i :: p) = surplus [i] + surplus p := by
    simp only [surplus, List.countP_cons, List.countP_nil]
    omega
  rw [hone]
  cases i <;> rfl

theorem surplus_append (p q : Program) : surplus (p ++ q) = surplus p + surplus q := by
  simp only [surplus, List.countP_append]
  omega

/-- The instructions behind an index and up to another, which is one of them. -/
def segment (program : Program) (start last : Nat) : Program :=
  (program.drop (start + 1)).take (last - start)

theorem segment_self (program : Program) (start : Nat) : program.segment start start = [] := by
  rw [segment, Nat.sub_self, List.take_zero]

/-- A segment is cut at an index inside it. -/
theorem segment_append (hstart : start ≤ n) (hlast : n ≤ last) :
    program.segment start last = program.segment start n ++ program.segment n last := by
  have hcut : last - start = (n - start) + (last - n) := by omega
  have hdrop : start + 1 + (n - start) = n + 1 := by omega
  rw [segment, hcut, List.take_add, List.drop_drop, hdrop]
  rfl

theorem segment_succ (hi : program[n + 1]? = some i) : program.segment n (n + 1) = [i] := by
  obtain ⟨hlt, rfl⟩ := List.getElem?_eq_some_iff.mp hi
  rw [segment, List.drop_eq_getElem_cons hlt, Nat.add_sub_cancel_left]
  rfl

/-- A further instruction changes the surplus by what it closes. -/
theorem surplus_segment_succ (hstart : start ≤ n) (hi : program[n + 1]? = some i) :
    surplus (program.segment start (n + 1)) = surplus (program.segment start n) + i.closed := by
  rw [segment_append hstart (Nat.le_succ n), surplus_append, segment_succ hi, surplus_cons,
    surplus_nil, Int.add_zero]

/-- More ends than heads of loops stand behind `start` and up to `last`. -/
def ClosesAt (program : Program) (start last : Nat) : Prop :=
  start < last ∧ last < program.length ∧
    (program.segment start last).countP Instruction.isLoop <
      (program.segment start last).countP Instruction.isLoopEnd

theorem closesAt_iff : program.ClosesAt start last ↔
    start < last ∧ last < program.length ∧ 0 < surplus (program.segment start last) := by
  refine and_congr_right fun _ => and_congr_right fun _ => ?_
  rw [surplus]
  omega

/-! ### The scan -/

/-- An instruction that does not close the last loop is passed over. -/
theorem closingIndex?_of_closed_lt (h : i.closed < depth) (p : Program) :
    closingIndex? depth (i :: p) = (closingIndex? (depth - i.closed) p).map (· + 1) := by
  cases i with
  | loop condition stop =>
    have hup : (Depth.up depth : Int) = depth - -1 := by
      rw [Depth.up_int]
      omega
    rw [Instruction.closed_loop, ← hup]
    rfl
  | loopEnd =>
    have hopen : ¬ Depth.isZero (Depth.down depth) = true := by
      rw [Instruction.closed_loopEnd] at h
      rw [Depth.isZero_int, Depth.down_int]
      omega
    rw [closingIndex?, if_neg hopen]
    rfl
  | assign target value =>
    rw [Instruction.closed_assign, Int.sub_zero]
    rfl
  | write args =>
    rw [Instruction.closed_write, Int.sub_zero]
    rfl

/-- The scan ends at an instruction that closes the last loop. -/
theorem closingIndex?_of_le_closed (hdepth : 0 < depth) (h : depth ≤ i.closed) (p : Program) :
    closingIndex? depth (i :: p) = some 0 := by
  cases i with
  | loopEnd =>
    obtain rfl : depth = 1 := Int.le_antisymm h hdepth
    rfl
  | loop condition stop | assign target value | write args =>
    simp only [Instruction.closed_loop, Instruction.closed_assign, Instruction.closed_write] at h
    omega

/-- What the scan finds in front of it, with `depth` loops open: the first instruction up to which
there are so many more ends than heads. -/
theorem closingIndex?_cases (hdepth : 0 < depth) (p : Program) :
    (∃ k, closingIndex? depth p = some k ∧
      IsLeast {k | k < p.length ∧ depth ≤ surplus (p.take (k + 1))} k) ∨
    closingIndex? depth p = none ∧ ∀ k < p.length, surplus (p.take (k + 1)) < depth := by
  induction p generalizing depth with
  | nil => exact .inr ⟨rfl, fun k hk => absurd hk (Nat.not_lt_zero k)⟩
  | cons i p ih =>
    -- The front of the list up to an index, without its first instruction.
    have hfront : ∀ k, surplus ((i :: p).take (k + 1)) = i.closed + surplus (p.take k) := by
      intro k
      rw [List.take_succ_cons, surplus_cons]
    have hle := i.closed_le_one
    rcases Int.lt_or_le i.closed depth with hopen | hclosed
    · rw [closingIndex?_of_closed_lt hopen]
      rcases ih (show 0 < depth - i.closed by omega) with
        ⟨k, hk, ⟨hlt, hsurplus⟩, hleast⟩ | ⟨hnone, hall⟩
      · refine .inl ⟨k + 1, by rw [hk]; rfl, ⟨Nat.succ_lt_succ hlt, ?_⟩, ?_⟩
        · rw [hfront]
          omega
        · rintro (_ | m) ⟨hm, hmsurplus⟩
          · rw [hfront, List.take_zero, surplus_nil] at hmsurplus
            omega
          · rw [hfront] at hmsurplus
            exact Nat.succ_le_succ (hleast ⟨Nat.lt_of_succ_lt_succ hm, by omega⟩)
      · refine .inr ⟨by rw [hnone]; rfl, ?_⟩
        rintro (_ | m) hm
        · rw [hfront, List.take_zero, surplus_nil]
          omega
        · have := hall m (Nat.lt_of_succ_lt_succ hm)
          rw [hfront]
          omega
    · rw [closingIndex?_of_le_closed hdepth hclosed]
      refine .inl ⟨0, rfl, ⟨Nat.succ_pos _, ?_⟩, fun m _ => Nat.zero_le m⟩
      rw [hfront, List.take_zero, surplus_nil]
      omega

/-- **The scan finds the first index up to which there are more ends than heads**, or the end of the
program if there is none. -/
theorem isLeast_loopEnd (program : Program) (start : Nat) :
    IsLeast {last | program.ClosesAt start last} (program.loopEnd start) ∨
      (∀ last, ¬ program.ClosesAt start last) ∧ program.loopEnd start = program.length := by
  -- An index of the program is one of the instructions behind `start`, counted from there.
  have hcloses : ∀ k, program.ClosesAt start (start + 1 + k) ↔
      k < (program.drop (start + 1)).length ∧
        1 ≤ surplus ((program.drop (start + 1)).take (k + 1)) := by
    intro k
    have hlength : start + 1 + k - start = k + 1 := by omega
    rw [closesAt_iff, segment, hlength, List.length_drop]
    omega
  have hbehind : ∀ last, program.ClosesAt start last → ∃ k, last = start + 1 + k := by
    intro last h
    exact Nat.exists_eq_add_of_le h.1
  rw [loopEnd, loopEndIn]
  rcases closingIndex?_cases (show (0 : Int) < Depth.one by decide)
      (program.drop (start + 1)) with
    ⟨k, hk, hfound, hleast⟩ | ⟨hnone, hall⟩
  · rw [hk]
    refine .inl ⟨(hcloses k).mpr hfound, ?_⟩
    intro last hlast
    obtain ⟨m, rfl⟩ := hbehind last hlast
    exact Nat.add_le_add_left (hleast ((hcloses m).mp hlast)) _
  · rw [hnone]
    refine .inr ⟨?_, rfl⟩
    intro last hlast
    obtain ⟨m, rfl⟩ := hbehind last hlast
    obtain ⟨hm, hsurplus⟩ := (hcloses m).mp hlast
    exact absurd (hall m hm) (Int.not_lt.mpr hsurplus)

theorem loopEnd_le_length (program : Program) (start : Nat) :
    program.loopEnd start ≤ program.length := by
  rcases program.isLeast_loopEnd start with h | ⟨-, h⟩
  · exact Nat.le_of_lt h.1.2.1
  · exact Nat.le_of_eq h

theorem loopEnd_le_of_closesAt (h : program.ClosesAt start last) :
    program.loopEnd start ≤ last := by
  rcases program.isLeast_loopEnd start with hleast | ⟨hnone, -⟩
  · exact hleast.2 h
  · exact absurd h (hnone last)

/-! ### Scans do not cross -/

/-- Up to a head that the scan passes over, there are fewer ends than heads. -/
theorem surplus_segment_head_lt (hstop : program.LoopAt head stop) (hstart : start < head)
    (hbefore : ∀ n < head, ¬ program.ClosesAt start n) :
    surplus (program.segment start head) < 0 := by
  obtain ⟨condition, hhead⟩ := hstop
  obtain ⟨n, rfl⟩ : ∃ n, head = n + 1 := Nat.exists_eq_succ_of_ne_zero (by omega)
  have hlt : n + 1 < program.length := (List.getElem?_eq_some_iff.mp hhead).1
  have hle : surplus (program.segment start n) ≤ 0 := by
    rcases Nat.eq_or_lt_of_le (Nat.le_of_lt_succ hstart) with rfl | hbehind
    · rw [segment_self, surplus_nil]
    · refine Int.not_lt.mp fun hpos => hbefore n (Nat.lt_succ_self n) ?_
      exact closesAt_iff.mpr ⟨hbehind, by omega, hpos⟩
  rw [surplus_segment_succ (Nat.le_of_lt_succ hstart) hhead, Instruction.closed]
  omega

/-- **Scans do not cross.** A scan that starts at a head inside what another scan passes over comes
to its end first, or both find none. -/
theorem loopEnd_lt_of_lt (hstop : program.LoopAt head stop) (hstart : start < head)
    (hlt : head < program.loopEnd start) :
    program.loopEnd head < program.loopEnd start ∨
      program.loopEnd start = program.length ∧ program.loopEnd head = program.length := by
  have hlength := program.loopEnd_le_length head
  rcases program.isLeast_loopEnd start with ⟨hcloses, hleast⟩ | ⟨-, hend⟩
  · obtain ⟨-, hlast, hpos⟩ := closesAt_iff.mp hcloses
    obtain ⟨n, hn⟩ : ∃ n, program.loopEnd start = n + 1 :=
      Nat.exists_eq_succ_of_ne_zero (by omega)
    rw [hn] at hlt hleast hlast hpos ⊢
    have hhead := surplus_segment_head_lt hstop hstart fun m hm hm' => by
      have := hleast hm'
      omega
    -- The last instruction closes one loop at most, so one index earlier there was an end too many
    -- already.
    have hbefore := surplus_segment_succ (show start ≤ n by omega)
      (List.getElem?_eq_getElem hlast)
    have hone := program[n + 1].closed_le_one
    have hsplit : surplus (program.segment start n) =
        surplus (program.segment start head) + surplus (program.segment head n) := by
      rw [segment_append (Nat.le_of_lt hstart) (Nat.le_of_lt_succ hlt), surplus_append]
    have hne : head ≠ n := by
      rintro rfl
      omega
    have hinner : program.ClosesAt head n := closesAt_iff.mpr ⟨by omega, by omega, by omega⟩
    exact .inl (Nat.lt_succ_of_le (loopEnd_le_of_closesAt hinner))
  · rcases Nat.eq_or_lt_of_le hlength with heq | hinside
    · exact .inr ⟨hend, heq⟩
    · exact .inl (by rwa [hend])

/-! ### Linking -/

/-- The scan looks at what instructions close, and so not at where heads point. -/
theorem closingIndex?_congr (h : p.map Instruction.closed = q.map Instruction.closed)
    (hdepth : 0 < depth) : closingIndex? depth p = closingIndex? depth q := by
  induction p generalizing q depth with
  | nil => rw [List.map_eq_nil_iff.mp h.symm]
  | cons i p ih =>
    cases q with
    | nil => cases h
    | cons j q =>
      obtain ⟨hij, hpq⟩ := List.cons.inj h
      rcases Int.lt_or_le i.closed depth with hopen | hclosed
      · rw [closingIndex?_of_closed_lt hopen, closingIndex?_of_closed_lt (hij ▸ hopen), ← hij,
          ih hpq (by omega)]
      · rw [closingIndex?_of_le_closed hdepth hclosed,
          closingIndex?_of_le_closed hdepth (hij ▸ hclosed)]

theorem loopEnd_congr (h : p.map Instruction.closed = q.map Instruction.closed) (start : Nat) :
    p.loopEnd start = q.loopEnd start := by
  have hlength : p.length = q.length := by
    rw [← List.length_map Instruction.closed, h, List.length_map]
  have hdrop : (p.drop (start + 1)).map Instruction.closed =
      (q.drop (start + 1)).map Instruction.closed := by
    rw [List.map_drop, h, List.map_drop]
  rw [loopEnd, loopEndIn, closingIndex?_congr hdrop (by decide), hlength]
  rfl

/-- Pointing heads elsewhere does not change what instructions close. -/
theorem map_closed_mapIdx {f : Nat → Instruction → Instruction}
    (hf : ∀ n i, (f n i).closed = i.closed) (program : Program) :
    (program.mapIdx f).map Instruction.closed = program.map Instruction.closed := by
  refine List.ext_getElem (by rw [List.length_map, List.length_mapIdx, List.length_map]) ?_
  intro n hn hn'
  rw [List.getElem_map, List.getElem_mapIdx, List.getElem_map, hf]

/-- **Linking a linked program changes nothing.** -/
theorem link_link (program : Program) : program.link.link = program.link := by
  have hends : ∀ start, program.link.loopEnd start = program.loopEnd start := by
    intro start
    rw [link_eq_mapIdx]
    exact loopEnd_congr (map_closed_mapIdx (fun n i => i.closed_pointTo _) program) start
  rw [link_eq_mapIdx program.link]
  simp only [hends]
  rw [link_eq_mapIdx, List.mapIdx_mapIdx]
  refine congrArg (program.mapIdx ·) ?_
  funext start i
  exact i.pointTo_pointTo _

/-- The program with the head at an index, if there is one, pointing to the end that closes it. -/
def linkAt (program : Program) (head : Nat) : Program :=
  program.modify head (·.pointTo (program.loopEnd head))

/-- Links a program head by head. Each scan goes over heads that have been linked before it. -/
def linkInPlace (program : Program) : Program :=
  (List.range program.length).foldl linkAt program

/-- In front of an index all heads have been linked, and from there on none. -/
theorem foldl_linkAt (program : Program) (n : Nat) :
    (List.range n).foldl linkAt program =
      program.mapIdx fun k i => if k < n then i.pointTo (program.loopEnd k) else i := by
  induction n with
  | zero =>
    refine List.ext_getElem? fun k => ?_
    rw [List.range_zero, List.foldl_nil, List.getElem?_mapIdx]
    simp only [Nat.not_lt_zero, if_false, Option.map_id']
  | succ n ih =>
    have hkept : ∀ k (i : Instruction),
        (if k < n then i.pointTo (program.loopEnd k) else i).closed = i.closed := by
      intro k i
      split
      · exact i.closed_pointTo _
      · rfl
    have hclosed := map_closed_mapIdx hkept program
    rw [List.range_succ, List.foldl_append, ih, List.foldl_cons, List.foldl_nil, linkAt,
      loopEnd_congr hclosed]
    refine List.ext_getElem? fun k => ?_
    rw [List.getElem?_modify, List.getElem?_mapIdx, List.getElem?_mapIdx]
    cases program[k]? with
    | none => rfl
    | some i =>
      refine congrArg some ?_
      dsimp only
      rcases Nat.lt_trichotomy k n with hlt | rfl | hlt
      · rw [if_neg (Nat.ne_of_gt hlt), if_pos hlt, if_pos (Nat.lt_succ_of_lt hlt)]
      · rw [if_pos rfl, if_neg (Nat.lt_irrefl k), if_pos (Nat.lt_succ_self k)]
      · rw [if_neg (Nat.ne_of_lt hlt), if_neg (Nat.lt_asymm hlt),
          if_neg (Nat.not_lt.mpr (Nat.succ_le_of_lt hlt))]

/-- **Linking in place is linking.** -/
theorem linkInPlace_eq_link (program : Program) : program.linkInPlace = program.link := by
  rw [linkInPlace, foldl_linkAt, link_eq_mapIdx]
  refine List.ext_getElem (by rw [List.length_mapIdx, List.length_mapIdx]) ?_
  intro k hk hk'
  rw [List.length_mapIdx] at hk
  rw [List.getElem_mapIdx, List.getElem_mapIdx, if_pos hk]

end Program

end Stepwise
