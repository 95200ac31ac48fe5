import Stepwise.Compilation
import Stepwise.Proofs.Agreement

/-!
# How large programs are

Every clause reads at least one token, and every clause becomes at most two instructions: a loop is
given its end even if the text has none. So a program has at most twice as many instructions as
there are tokens, accepted or not. And every head points into the program, at an instruction behind
itself.

## Main results

* `Program.length_ofTokens_le` — at most two instructions for each token
* `Program.lt_length_of_mem_ofStmts` — heads of loops point into the program
-/

namespace Stepwise

theorem Clause.length_ofTokens_le (tokens : List Token) :
    (ofTokens Int tokens).length ≤ tokens.length := by
  induction tokens using ofTokens.induct Int with
  | case1 =>
    rw [ofTokens_nil]
    exact Nat.le_refl 0
  | case2 t ts reading hbehind =>
    have hrest := reading.length_rest_le
    have hclause : reading.value.toList.length ≤ 1 := by
      cases reading.value <;> simp
    calc (ofTokens Int (t :: ts)).length
        = reading.value.toList.length + (ofTokens Int reading.rest).length := by
          rw [ofTokens_cons, List.length_append]
      _ ≤ (t :: ts).length := by
          rw [List.length_cons]
          omega

namespace Stmt

theorem sizes_append (stmts others : List Stmt) :
    sizes (stmts ++ others) = sizes stmts + sizes others := by
  induction stmts with
  | nil => rw [List.nil_append, sizes_nil, Nat.zero_add]
  | cons s stmts ih => rw [List.cons_append, sizes, sizes, ih, Nat.add_assoc]

/-- Every clause becomes at most two instructions. -/
theorem sizes_ofClauses_le (clauses : List Clause) :
    sizes (ofClauses clauses) ≤ 2 * clauses.length := by
  induction clauses with
  | nil => exact Nat.le_refl 0
  | cons clause clauses ih =>
    rw [List.length_cons]
    cases clause with
    | assign target value =>
      rw [ofClauses_assign, sizes_assign]
      omega
    | write args =>
      rw [ofClauses_write, sizes_write]
      omega
    | loopEnd =>
      rw [ofClauses_loopEnd]
      omega
    | loop condition =>
      obtain ⟨body, behind, hrest, hloop⟩ := ofClauses_loop condition clauses
      rw [hrest, sizes_append] at ih
      rw [hloop, sizes_loop]
      omega

end Stmt

namespace Program

/-- **At most two instructions for each token.** -/
theorem length_ofTokens_le (tokens : List Token) :
    (ofTokens tokens).length ≤ 2 * tokens.length := by
  rw [ofTokens_eq, ofStmts_eq_placed, length_placed]
  calc Stmt.sizes (Stmt.ofTokens tokens)
      ≤ 2 * (Clause.ofTokens Int tokens).length := Stmt.sizes_ofClauses_le _
    _ ≤ 2 * tokens.length := Nat.mul_le_mul_left 2 (Clause.length_ofTokens_le tokens)

/-- A head of a loop points behind the instructions before it, and not behind the end. -/
theorem lt_of_mem_placed {base : Nat} {stmts : List Stmt} {condition : Expr} {stop : Nat}
    (h : Instruction.loop condition stop ∈ placed base stmts) :
    base < stop ∧ stop < base + Stmt.sizes stmts := by
  induction stmts using Stmt.list_induction generalizing base with
  | nil =>
    rw [placed_nil] at h
    cases h
  | assign target value rest ih =>
    rw [placed_assign] at h
    have hrest := ih ((List.mem_cons.mp h).resolve_left (by simp))
    rw [Stmt.sizes_assign]
    omega
  | write args rest ih =>
    rw [placed_write] at h
    have hrest := ih ((List.mem_cons.mp h).resolve_left (by simp))
    rw [Stmt.sizes_write]
    omega
  | loop condition' body rest ihbody ihrest =>
    rw [placed_loop] at h
    rw [Stmt.sizes_loop]
    rcases List.mem_cons.mp h with hhead | h
    · cases hhead
      omega
    rcases List.mem_append.mp h with hbody | h
    · have := ihbody hbody
      omega
    · have := ihrest ((List.mem_cons.mp h).resolve_left (by simp))
      omega

/-- **Heads of loops point into the program.** -/
theorem lt_length_of_mem_ofStmts {stmts : List Stmt} {condition : Expr} {stop : Nat}
    (h : Instruction.loop condition stop ∈ ofStmts stmts) : stop < (ofStmts stmts).length := by
  rw [ofStmts_eq_placed] at h ⊢
  rw [length_placed]
  exact Nat.zero_add (Stmt.sizes stmts) ▸ (lt_of_mem_placed h).2

end Program

end Stepwise
