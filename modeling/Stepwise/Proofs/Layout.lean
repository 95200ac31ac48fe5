import Stepwise.Instruction

/-!
# Where loops end

Flattening leaves the ends of loops to a second pass, which scans forward from every head and
counts. The scan knows nothing of statements. That it finds the right end is a fact about
brackets: the instructions of a statement list are bracketed, and a scan that has something open
passes over a bracketed piece with its count unchanged.

The result is a description of the program without any scan in it. `Program.placed` writes the
instructions of statements down for a place in a program, with every head pointing to where its
end is going to be, and `Program.ofStmts_eq_placed` says that the two passes amount to that.

## Main definitions

* `Program.Bracketed` — heads and ends of loops match
* `Program.placed` — the instructions of statements at a place in a program

## Main results

* `Program.closingIndex?_append` — a scan passes over a bracketed piece
* `Program.ofStmts_eq_placed` — flattening and linking place the statements at zero
-/

namespace Stepwise

/-- What holds of no statements, is kept by each kind of statement in front, and for a loop may
use that it holds of the body, holds of all lists of statements. -/
@[elab_as_elim]
theorem Stmt.list_induction {motive : List Stmt → Prop} (nil : motive [])
    (assign : ∀ target value rest, motive rest → motive (.assign target value :: rest))
    (write : ∀ args rest, motive rest → motive (.write args :: rest))
    (loop : ∀ condition body rest, motive body → motive rest →
      motive (.loop condition body :: rest)) : ∀ stmts, motive stmts
  | [] => nil
  | .assign target value :: rest =>
    assign target value rest (list_induction nil assign write loop rest)
  | .write args :: rest => write args rest (list_induction nil assign write loop rest)
  | .loop condition body :: rest =>
    loop condition body rest (list_induction nil assign write loop body)
      (list_induction nil assign write loop rest)

/-- The instruction, made to point to `stop` if it is the head of a loop. -/
def Instruction.pointTo (stop : Nat) : Instruction → Instruction
  | .loop condition _ => .loop condition stop
  | i => i

namespace Instruction

theorem ofStmts_assign (target : String) (value : Expr) (rest : List Stmt) :
    ofStmts (.assign target value :: rest) = .assign target value :: ofStmts rest := by
  rw [ofStmts_cons, ofStmt, List.singleton_append]

theorem ofStmts_write (args : List Expr) (rest : List Stmt) :
    ofStmts (.write args :: rest) = .write args :: ofStmts rest := by
  rw [ofStmts_cons, ofStmt, List.singleton_append]

theorem ofStmts_loop (condition : Expr) (body rest : List Stmt) :
    ofStmts (.loop condition body :: rest) =
      .loop condition 0 :: (ofStmts body ++ .loopEnd :: ofStmts rest) := by
  rw [ofStmts_cons, ofStmt, List.cons_append, List.append_assoc, List.singleton_append]

end Instruction

namespace Program

/-! ### Brackets -/

/-- Every head of a loop has an end, and every end a head. -/
inductive Bracketed : Program → Prop where
  | nil : Bracketed []
  | assign (target : String) (value : Expr) {rest : Program} :
    Bracketed rest → Bracketed (.assign target value :: rest)
  | write (args : List Expr) {rest : Program} : Bracketed rest → Bracketed (.write args :: rest)
  | loop (condition : Expr) (stop : Nat) {body rest : Program} :
    Bracketed body → Bracketed rest →
      Bracketed (.loop condition stop :: (body ++ .loopEnd :: rest))

theorem bracketed_ofStmts (stmts : List Stmt) : Bracketed (Instruction.ofStmts stmts) := by
  induction stmts using Stmt.list_induction with
  | nil => exact Instruction.ofStmts_nil ▸ .nil
  | assign target value rest ih => exact Instruction.ofStmts_assign .. ▸ .assign target value ih
  | write args rest ih => exact Instruction.ofStmts_write .. ▸ .write args ih
  | loop condition body rest ihbody ihrest =>
    exact Instruction.ofStmts_loop .. ▸ .loop condition 0 ihbody ihrest

private theorem map_add_map_succ (o : Option Nat) (m : Nat) :
    (o.map (m + ·)).map (· + 1) = o.map (m + 1 + ·) := by
  rw [Option.map_map]
  refine congrArg (o.map ·) (funext fun n => ?_)
  rw [Function.comp_apply]
  omega

/-- **A scan passes over a bracketed piece.** As long as a loop is open, what is opened and closed
inside the piece cannot bring the count to zero. -/
theorem closingIndex?_append {piece : Program} (h : Bracketed piece) {depth : Int}
    (hd : 0 < depth) (rest : Program) :
    closingIndex? depth (piece ++ rest) = (closingIndex? depth rest).map (piece.length + ·) := by
  induction h generalizing depth rest with
  | nil => simp
  | assign target value _ ih =>
    rw [List.cons_append, closingIndex?, ih hd, map_add_map_succ, List.length_cons] <;> simp
  | write args _ ih =>
    rw [List.cons_append, closingIndex?, ih hd, map_add_map_succ, List.length_cons] <;> simp
  | @loop condition stop body tail _ _ ihbody ihtail =>
    have hup : 0 < (Depth.up depth : Int) := by
      rw [Depth.up_int]
      omega
    have hdown : (Depth.down (Depth.up depth) : Int) = depth := by
      rw [Depth.up_int, Depth.down_int]
      omega
    have hclose : ¬ Depth.isZero depth = true := by
      rw [Depth.isZero_int]
      omega
    rw [List.cons_append, List.append_assoc, List.cons_append, closingIndex?, ihbody hup,
      closingIndex?, hdown, if_neg hclose, ihtail hd, map_add_map_succ, Option.map_map,
      Option.map_map]
    refine congrArg (Option.map · _) (funext fun n => ?_)
    simp only [Function.comp_apply, List.length_cons, List.length_append]
    omega

/-- The end of a loop with a bracketed body stands right behind the body. -/
theorem closingIndex?_one_body {body : Program} (h : Bracketed body) (rest : Program) :
    closingIndex? (Depth.one : Int) (body ++ .loopEnd :: rest) = some body.length := by
  rw [closingIndex?_append h (by rw [Depth.one_int]; omega), closingIndex?, if_pos (by decide)]
  rfl

/-! ### Linking -/

theorem link_eq_mapIdx (program : Program) :
    link program = program.mapIdx fun start i => i.pointTo (loopEnd program start) := by
  refine congrArg (program.mapIdx ·) (funext fun start => funext fun i => ?_)
  cases i <;> rfl

/-- The end that a head points to depends on how many instructions stand before it, and else only
on those behind it. -/
theorem loopEnd_append_cons (before rest : Program) (i : Instruction) :
    loopEnd (before ++ i :: rest) before.length =
      before.length + 1 + (closingIndex? (Depth.one : Int) rest).getD rest.length := by
  have hdrop : (before ++ i :: rest).drop (before.length + 1) = rest := by
    simp [List.drop_append]
  rw [loopEnd, loopEndIn, hdrop]
  cases closingIndex? (Depth.one : Int) rest with
  | none =>
    simp only [Option.getD_none, List.length_append, List.length_cons]
    omega
  | some distance => rfl

theorem loopEnd_append_body {body : Program} (h : Bracketed body) (before rest : Program)
    (i : Instruction) :
    loopEnd (before ++ i :: (body ++ .loopEnd :: rest)) before.length =
      before.length + 1 + body.length := by
  rw [loopEnd_append_cons, closingIndex?_one_body h, Option.getD_some]

/-- Linking as a recursion, for a piece of a program that stands at `base`. -/
def linkFrom (base : Nat) : Program → Program
  | [] => []
  | i :: rest =>
    i.pointTo (base + 1 + (closingIndex? (Depth.one : Int) rest).getD rest.length) ::
      linkFrom (base + 1) rest

theorem link_eq_linkFrom (program : Program) : link program = linkFrom 0 program := by
  suffices h : ∀ before rest : Program, program = before ++ rest →
      (rest.mapIdx fun k i => i.pointTo (loopEnd program (before.length + k))) =
        linkFrom before.length rest by
    rw [link_eq_mapIdx, ← List.length_nil, ← h [] program rfl]
    simp
  intro before rest
  induction rest generalizing before with
  | nil => intro _; rfl
  | cons i rest ih =>
    intro hp
    have hrest := ih (before ++ [i]) (by rw [hp, List.append_assoc]; rfl)
    rw [List.length_append, List.length_singleton] at hrest
    rw [List.mapIdx_cons, linkFrom, ← hrest, Nat.add_zero, hp, loopEnd_append_cons]
    refine congrArg _ (congrArg (List.mapIdx · rest) (funext fun k => ?_))
    rw [Nat.add_right_comm, Nat.add_assoc]

/-! ### Placing statements -/

end Program

namespace Stmt

mutual

/-- The number of instructions of a statement. -/
def size : Stmt → Nat
  | .loop _ body => sizes body + 2
  | .assign .. => 1
  | .write _ => 1

/-- The number of instructions of a list of statements. -/
def sizes : List Stmt → Nat
  | [] => 0
  | s :: rest => size s + sizes rest

end

@[simp] theorem sizes_nil : sizes [] = 0 := by rw [sizes]

@[simp] theorem sizes_assign (target : String) (value : Expr) (rest : List Stmt) :
    sizes (.assign target value :: rest) = sizes rest + 1 := by
  rw [sizes, size, Nat.add_comm]

@[simp] theorem sizes_write (args : List Expr) (rest : List Stmt) :
    sizes (.write args :: rest) = sizes rest + 1 := by
  rw [sizes, size, Nat.add_comm]

@[simp] theorem sizes_loop (condition : Expr) (body rest : List Stmt) :
    sizes (.loop condition body :: rest) = sizes body + sizes rest + 2 := by
  rw [sizes, size, Nat.add_right_comm]

/-- Every instruction counts once. -/
theorem length_ofStmts (stmts : List Stmt) : (Instruction.ofStmts stmts).length = sizes stmts := by
  induction stmts using list_induction with
  | nil => rw [Instruction.ofStmts_nil, sizes_nil, List.length_nil]
  | assign target value rest ih =>
    rw [Instruction.ofStmts_assign, List.length_cons, ih, sizes_assign]
  | write args rest ih => rw [Instruction.ofStmts_write, List.length_cons, ih, sizes_write]
  | loop condition body rest ihbody ihrest =>
    rw [Instruction.ofStmts_loop, List.length_cons, List.length_append, List.length_cons, ihbody,
      ihrest, sizes_loop]
    omega

end Stmt

namespace Program

mutual

/-- The instructions of a statement that stands at `base`. -/
def placedStmt (base : Nat) : Stmt → Program
  | .loop condition body =>
    .loop condition (base + 1 + Stmt.sizes body) :: (placed (base + 1) body ++ [.loopEnd])
  | .assign target value => [.assign target value]
  | .write args => [.write args]

/-- The instructions of a list of statements that stands at `base`. -/
def placed (base : Nat) : List Stmt → Program
  | [] => []
  | s :: rest => placedStmt base s ++ placed (base + s.size) rest

end

theorem placed_nil (base : Nat) : placed base [] = [] := by rw [placed]

theorem placed_assign (base : Nat) (target : String) (value : Expr) (rest : List Stmt) :
    placed base (.assign target value :: rest) =
      .assign target value :: placed (base + 1) rest := by
  rw [placed, placedStmt, Stmt.size, List.singleton_append]

theorem placed_write (base : Nat) (args : List Expr) (rest : List Stmt) :
    placed base (.write args :: rest) = .write args :: placed (base + 1) rest := by
  rw [placed, placedStmt, Stmt.size, List.singleton_append]

theorem placed_loop (base : Nat) (condition : Expr) (body rest : List Stmt) :
    placed base (.loop condition body :: rest) =
      .loop condition (base + 1 + Stmt.sizes body) ::
        (placed (base + 1) body ++ .loopEnd :: placed (base + 1 + Stmt.sizes body + 1) rest) := by
  have hbase : base + (Stmt.sizes body + 2) = base + 1 + Stmt.sizes body + 1 := by omega
  rw [placed, placedStmt, Stmt.size, List.cons_append, List.append_assoc, List.singleton_append,
    hbase]

@[simp] theorem length_placed (base : Nat) (stmts : List Stmt) :
    (placed base stmts).length = Stmt.sizes stmts := by
  induction stmts using Stmt.list_induction generalizing base with
  | nil => rw [placed_nil, Stmt.sizes_nil, List.length_nil]
  | assign target value rest ih => rw [placed_assign, List.length_cons, ih, Stmt.sizes_assign]
  | write args rest ih => rw [placed_write, List.length_cons, ih, Stmt.sizes_write]
  | loop condition body rest ihbody ihrest =>
    rw [placed_loop, List.length_cons, List.length_append, ihbody, List.length_cons, ihrest,
      Stmt.sizes_loop]
    omega

theorem bracketed_placed (base : Nat) (stmts : List Stmt) : Bracketed (placed base stmts) := by
  induction stmts using Stmt.list_induction generalizing base with
  | nil => exact placed_nil base ▸ .nil
  | assign target value rest ih => exact placed_assign .. ▸ .assign target value (ih _)
  | write args rest ih => exact placed_write .. ▸ .write args (ih _)
  | loop condition body rest ihbody ihrest =>
    exact placed_loop .. ▸ .loop condition _ (ihbody _) (ihrest _)

/-- Statements stand behind the instructions of those before them. -/
theorem placed_append (base : Nat) (stmts others : List Stmt) :
    placed base (stmts ++ others) =
      placed base stmts ++ placed (base + Stmt.sizes stmts) others := by
  induction stmts generalizing base with
  | nil => rw [List.nil_append, placed_nil, List.nil_append, Stmt.sizes_nil, Nat.add_zero]
  | cons s stmts ih =>
    rw [List.cons_append, placed, placed, Stmt.sizes, ih, List.append_assoc, Nat.add_assoc]

/-- Behind `offset` more instructions, heads point further by as much. -/
theorem placed_add (offset base : Nat) (stmts : List Stmt) :
    placed (offset + base) stmts = (placed base stmts).map (Instruction.shift offset) := by
  induction stmts using Stmt.list_induction generalizing base with
  | nil => rw [placed_nil, placed_nil, List.map_nil]
  | assign target value rest ih =>
    rw [placed_assign, placed_assign, List.map_cons, Nat.add_assoc, ih]
    rfl
  | write args rest ih =>
    rw [placed_write, placed_write, List.map_cons, Nat.add_assoc, ih]
    rfl
  | loop condition body rest ihbody ihrest =>
    simp only [placed_loop, Nat.add_assoc, ihbody, ihrest, List.map_cons, List.map_append,
      Instruction.shift]

/-- Linking places the statements in front of whatever follows them. -/
theorem linkFrom_ofStmts_append (base : Nat) (stmts : List Stmt) (rest : Program) :
    linkFrom base (Instruction.ofStmts stmts ++ rest) =
      placed base stmts ++ linkFrom (base + Stmt.sizes stmts) rest := by
  induction stmts using Stmt.list_induction generalizing base rest with
  | nil => rw [Instruction.ofStmts_nil, placed_nil, Stmt.sizes_nil]; rfl
  | assign target value tail ih =>
    have hbase : base + 1 + Stmt.sizes tail = base + (Stmt.sizes tail + 1) := by omega
    rw [Instruction.ofStmts_assign, List.cons_append, linkFrom, ih, placed_assign,
      Stmt.sizes_assign, hbase]
    rfl
  | write args tail ih =>
    have hbase : base + 1 + Stmt.sizes tail = base + (Stmt.sizes tail + 1) := by omega
    rw [Instruction.ofStmts_write, List.cons_append, linkFrom, ih, placed_write,
      Stmt.sizes_write, hbase]
    rfl
  | loop condition body tail ihbody ihtail =>
    have hbase : base + 1 + Stmt.sizes body + 1 + Stmt.sizes tail =
        base + (Stmt.sizes body + Stmt.sizes tail + 2) := by omega
    rw [Instruction.ofStmts_loop, placed_loop, Stmt.sizes_loop, List.cons_append,
      List.append_assoc, List.cons_append, linkFrom,
      closingIndex?_one_body (bracketed_ofStmts body), Option.getD_some, Stmt.length_ofStmts,
      ihbody, linkFrom, ihtail, hbase, List.cons_append, List.append_assoc]
    rfl

/-- **Flattening and linking place the statements.** -/
theorem ofStmts_eq_placed (stmts : List Stmt) : ofStmts stmts = placed 0 stmts := by
  have h := linkFrom_ofStmts_append 0 stmts []
  rw [List.append_nil, linkFrom, List.append_nil] at h
  rw [ofStmts, link_eq_linkFrom, h]

end Program

end Stepwise
