import Mathlib.Logic.ExistsUnique
import Stepwise.Proofs.Meaning

/-!
# Heads and ends of loops

In a placed program every head of a loop points to an end, every end has a head that points to it,
and a loop that begins inside another ends inside it. All three are said of a range of indices, and
`Program.Matched` is kept when a range is extended by a plain instruction, by another range, or by
the head and the end of a loop around it. So it follows the statements that the program was made
of.

## Main definitions

* `Program.LoopAt` — the head of a loop stands at an index and points to another
* `Program.Matched` — heads and ends inside a range belong together
* `Program.Partners` — the head and the end of one loop

## Main results

* `Program.HasAt.matched` — the instructions of statements are matched
* `Program.partners_ofStmts` — heads and ends have one partner each, and loops do not cross
-/

namespace Stepwise

namespace Program

/-- The head of a loop stands at `head` and points to `last`. -/
def LoopAt (program : Program) (head last : Nat) : Prop :=
  ∃ condition, program[head]? = some (.loop condition last)

/-- Heads and ends of loops from `low` on and below `high` belong together. -/
structure Matched (program : Program) (low high : Nat) : Prop where
  /-- A head points forward to an end. -/
  last : ∀ {i e}, low ≤ i → i < high → program.LoopAt i e →
    i < e ∧ e < high ∧ program[e]? = some .loopEnd
  /-- An end has a head. -/
  head : ∀ {e}, low ≤ e → e < high → program[e]? = some .loopEnd →
    ∃ i, low ≤ i ∧ i < e ∧ program.LoopAt i e
  /-- What begins inside a loop ends inside it. -/
  inside : ∀ {i e j e'}, low ≤ i → i < high → program.LoopAt i e → program.LoopAt j e' → i < j →
    j < e → e' < e

variable {program : Program} {low mid high : Nat}

theorem LoopAt.last_unique {i e e' : Nat} (h : program.LoopAt i e) (h' : program.LoopAt i e') :
    e = e' := by
  obtain ⟨condition, h⟩ := h
  obtain ⟨condition', h'⟩ := h'
  rw [h] at h'
  cases h'
  rfl

theorem LoopAt.ne_of_getElem? {i e n : Nat} {instruction : Instruction} (h : program.LoopAt i e)
    (hn : program[n]? = some instruction)
    (hloop : ∀ condition stop, instruction ≠ .loop condition stop) : i ≠ n := by
  rintro rfl
  obtain ⟨condition, h⟩ := h
  rw [h, Option.some.injEq] at hn
  exact hloop condition e hn.symm

theorem LoopAt.ne_of_loopEnd {i e n : Nat} (h : program.LoopAt i e)
    (hn : program[n]? = some .loopEnd) : i ≠ n :=
  h.ne_of_getElem? hn fun _ _ => Instruction.noConfusion

theorem LoopAt.lt_length {i e : Nat} (h : program.LoopAt i e) : i < program.length := by
  obtain ⟨condition, h⟩ := h
  exact (List.getElem?_eq_some_iff.mp h).1

theorem matched_refl (program : Program) (n : Nat) : program.Matched n n :=
  ⟨fun hlow hhigh => absurd hlow (Nat.not_le.mpr hhigh),
    fun hlow hhigh => absurd hlow (Nat.not_le.mpr hhigh),
    fun hlow hhigh => absurd hlow (Nat.not_le.mpr hhigh)⟩

theorem Matched.append (h : program.Matched low mid) (h' : program.Matched mid high)
    (hlow : low ≤ mid) (hhigh : mid ≤ high) : program.Matched low high := by
  refine ⟨fun {i e} hl hh hloop => ?_, fun {e} hl hh hend => ?_,
    fun {i e j e'} hl hh hloop hloop' => ?_⟩
  · by_cases hi : i < mid
    · obtain ⟨hlt, hmid, hend⟩ := h.last hl hi hloop
      exact ⟨hlt, Nat.lt_of_lt_of_le hmid hhigh, hend⟩
    · exact h'.last (Nat.not_lt.mp hi) hh hloop
  · by_cases he : e < mid
    · exact h.head hl he hend
    · obtain ⟨i, hi, hlt, hloop⟩ := h'.head (Nat.not_lt.mp he) hh hend
      exact ⟨i, Nat.le_trans hlow hi, hlt, hloop⟩
  · by_cases hi : i < mid
    · exact h.inside hl hi hloop hloop'
    · exact h'.inside (Nat.not_lt.mp hi) hh hloop hloop'

/-- An instruction that neither begins nor ends a loop, in front of a range. -/
theorem Matched.cons {n : Nat} {i : Instruction} (h : program.Matched (n + 1) high)
    (hlt : n < high) (hi : program[n]? = some i)
    (hloop : ∀ condition stop, i ≠ .loop condition stop) (hend : i ≠ .loopEnd) :
    program.Matched n high := by
  have hno : ∀ {m e}, n ≤ m → m < n + 1 → ¬ program.LoopAt m e := by
    rintro m e hl hh ⟨condition, hm⟩
    rw [show m = n by omega, hi, Option.some.injEq] at hm
    exact hloop _ _ hm
  have hfirst : program.Matched n (n + 1) := by
    refine ⟨fun hl hh hm => absurd hm (hno hl hh), fun {e} hl hh he => ?_,
      fun hl hh hm => absurd hm (hno hl hh)⟩
    rw [show e = n by omega, hi, Option.some.injEq] at he
    exact absurd he hend
  exact hfirst.append h (Nat.le_succ n) hlt

/-- The head and the end of a loop around a range. -/
theorem Matched.loop {n e : Nat} (h : program.Matched (n + 1) e) (hlt : n < e)
    (hloop : program.LoopAt n e) (hend : program[e]? = some .loopEnd) :
    program.Matched n (e + 1) := by
  refine ⟨fun {i e'} hl hh hi => ?_, fun {e'} hl hh he => ?_,
    fun {i e' j e''} hl hh hi hj hij hje => ?_⟩
  · have hne : i ≠ e := hi.ne_of_loopEnd hend
    rcases Nat.eq_or_lt_of_le hl with rfl | hinner
    · rw [← hloop.last_unique hi]
      exact ⟨hlt, Nat.lt_succ_self e, hend⟩
    · obtain ⟨hie, hlast, hend'⟩ := h.last hinner (by omega) hi
      exact ⟨hie, by omega, hend'⟩
  · have hne : n ≠ e' := hloop.ne_of_loopEnd he
    by_cases hlast : e' = e
    · rw [hlast]
      exact ⟨n, Nat.le_refl n, hlt, hloop⟩
    · obtain ⟨i, hi, hie, hhead⟩ := h.head (by omega) (by omega) he
      exact ⟨i, by omega, hie, hhead⟩
  · have hne : i ≠ e := hi.ne_of_loopEnd hend
    rcases Nat.eq_or_lt_of_le hl with rfl | hinner
    · rw [← hloop.last_unique hi] at hje ⊢
      exact (h.last hij hje hj).2.1
    · exact h.inside hinner (by omega) hi hj hij hje

/-- **The instructions of statements are matched.** -/
theorem HasAt.matched {base : Nat} {stmts : List Stmt}
    (h : program.HasAt base (placed base stmts)) :
    program.Matched base (base + Stmt.sizes stmts) := by
  induction stmts using Stmt.list_induction generalizing base with
  | nil => exact matched_refl program base
  | assign target value rest ih =>
    rw [placed_assign] at h
    have hindex : base + 1 + Stmt.sizes rest = base + (Stmt.sizes rest + 1) := by omega
    have hrest := ih h.tail
    rw [hindex] at hrest
    rw [Stmt.sizes_assign]
    exact hrest.cons (by omega) h.head (fun _ _ => Instruction.noConfusion) Instruction.noConfusion
  | write args rest ih =>
    rw [placed_write] at h
    have hindex : base + 1 + Stmt.sizes rest = base + (Stmt.sizes rest + 1) := by omega
    have hrest := ih h.tail
    rw [hindex] at hrest
    rw [Stmt.sizes_write]
    exact hrest.cons (by omega) h.head (fun _ _ => Instruction.noConfusion) Instruction.noConfusion
  | loop condition body rest ihbody ihrest =>
    rw [placed_loop] at h
    have hend := h.tail.right
    rw [length_placed] at hend
    have hblock : program.Matched base (base + 1 + Stmt.sizes body + 1) :=
      (ihbody h.tail.left).loop (by omega) ⟨condition, h.head⟩ hend.head
    have hindex : base + 1 + Stmt.sizes body + 1 + Stmt.sizes rest =
        base + (Stmt.sizes body + Stmt.sizes rest + 2) := by omega
    have hrest := ihrest hend.tail
    rw [hindex] at hrest
    rw [Stmt.sizes_loop]
    exact hblock.append hrest (by omega) (by omega)

/-- The program of statements is matched from its beginning to its end. -/
theorem matched_ofStmts (stmts : List Stmt) :
    (ofStmts stmts).Matched 0 (ofStmts stmts).length := by
  have h := (hasAt_ofStmts stmts).matched
  rwa [Nat.zero_add, ← length_ofStmts] at h

/-! ### Partners -/

/-- The head and the end of one loop: the head points to the end, and what stands between them is
bracketed. -/
structure Partners (program : Program) (head last : Nat) : Prop where
  loopAt : program.LoopAt head last
  ends : program[last]? = some .loopEnd
  bracketed : Bracketed ((program.drop (head + 1)).take (last - (head + 1)))

/-- Where a loop has been placed, its head and its end are partners. -/
theorem HasAt.partners {base : Nat} {condition : Expr} {body : List Stmt} {rest : Program}
    (h : program.HasAt base (.loop condition (base + 1 + Stmt.sizes body) ::
      (placed (base + 1) body ++ .loopEnd :: rest))) :
    program.Partners base (base + 1 + Stmt.sizes body) where
  loopAt := ⟨condition, h.head⟩
  ends := by
    have hend := h.tail.right.head
    rwa [length_placed] at hend
  bracketed := by
    obtain ⟨behind, hbehind⟩ := h.tail.left
    have hlength : base + 1 + Stmt.sizes body - (base + 1) = (placed (base + 1) body).length := by
      rw [length_placed, Nat.add_sub_cancel_left]
    rw [← hbehind, hlength, List.take_left]
    exact bracketed_placed (base + 1) body

/-- Every head of a loop has a partner among the instructions of the same statements. -/
theorem HasAt.partners_of_loopAt {base i e : Nat} {stmts : List Stmt}
    (h : program.HasAt base (placed base stmts)) (hlow : base ≤ i)
    (hhigh : i < base + Stmt.sizes stmts) (hloop : program.LoopAt i e) : program.Partners i e := by
  induction stmts using Stmt.list_induction generalizing base with
  | nil =>
    rw [Stmt.sizes_nil] at hhigh
    omega
  | assign target value rest ih =>
    rw [placed_assign] at h
    rw [Stmt.sizes_assign] at hhigh
    have hne : i ≠ base := hloop.ne_of_getElem? h.head fun _ _ => Instruction.noConfusion
    exact ih h.tail (by omega) (by omega)
  | write args rest ih =>
    rw [placed_write] at h
    rw [Stmt.sizes_write] at hhigh
    have hne : i ≠ base := hloop.ne_of_getElem? h.head fun _ _ => Instruction.noConfusion
    exact ih h.tail (by omega) (by omega)
  | loop condition body rest ihbody ihrest =>
    rw [placed_loop] at h
    rw [Stmt.sizes_loop] at hhigh
    have hpartners := h.partners
    have hend := h.tail.right
    rw [length_placed] at hend
    have hne : i ≠ base + 1 + Stmt.sizes body := hloop.ne_of_loopEnd hpartners.ends
    rcases Nat.eq_or_lt_of_le hlow with rfl | hinner
    · rwa [hloop.last_unique hpartners.loopAt]
    by_cases hbody : i < base + 1 + Stmt.sizes body
    · exact ihbody h.tail.left hinner hbody
    · exact ihrest hend.tail (by omega) (by omega)

/-- **Linking makes partners of heads and ends.** The program of statements is their translation
with the indices worked out from the sizes of the bodies. In it every head of a loop has one
partner, and so has every end. Of two loops the one with the later head begins behind the end of the
other or ends in front of it. -/
theorem partners_ofStmts (stmts : List Stmt) :
    ofStmts stmts = placed 0 stmts ∧
    (∀ head stop, (ofStmts stmts).LoopAt head stop →
      ∃! last, (ofStmts stmts).Partners head last) ∧
    (∀ last, (ofStmts stmts)[last]? = some .loopEnd →
      ∃! head, (ofStmts stmts).Partners head last) ∧
    ∀ i e j e', (ofStmts stmts).Partners i e → (ofStmts stmts).Partners j e' → i < j →
      e < j ∨ e' < e := by
  have hplaced := hasAt_ofStmts stmts
  have hmatched := matched_ofStmts stmts
  have hpartners : ∀ i e, (ofStmts stmts).LoopAt i e → (ofStmts stmts).Partners i e := by
    intro i e hloop
    refine hplaced.partners_of_loopAt (Nat.zero_le i) ?_ hloop
    rw [Nat.zero_add, ← length_ofStmts]
    exact hloop.lt_length
  have hinside : ∀ i e j e', (ofStmts stmts).Partners i e → (ofStmts stmts).Partners j e' →
      i < j → j < e → e' < e := by
    intro i e j e' hi hj
    exact hmatched.inside (Nat.zero_le i) hi.loopAt.lt_length hi.loopAt hj.loopAt
  refine ⟨ofStmts_eq_placed stmts, ?_, ?_, ?_⟩
  · intro head stop hloop
    exact ⟨stop, hpartners head stop hloop, fun last h => h.loopAt.last_unique hloop⟩
  · intro last hlast
    have hlt : last < (ofStmts stmts).length := (List.getElem?_eq_some_iff.mp hlast).1
    obtain ⟨head, -, hhead, hloop⟩ := hmatched.head (Nat.zero_le last) hlt hlast
    refine ⟨head, hpartners head last hloop, ?_⟩
    intro other hother
    -- Of two heads with one end, the later loop would end in front of its own end.
    have hother' := (hmatched.last (Nat.zero_le other) hother.loopAt.lt_length hother.loopAt).1
    rcases Nat.lt_trichotomy other head with hbefore | heq | hbehind
    · have := hinside other last head last hother (hpartners head last hloop) hbefore hhead
      omega
    · exact heq
    · have := hinside head last other last (hpartners head last hloop) hother hbehind hother'
      omega
  · intro i e j e' hi hj hlt
    have hne : j ≠ e := hj.loopAt.ne_of_loopEnd hi.ends
    by_cases hbehind : e < j
    · exact .inl hbehind
    · exact .inr (hinside i e j e' hi hj hlt (by omega))

end Program

end Stepwise
