import Stepwise.Depth
import Stepwise.Stmt.Basic

/-!
# Instructions

A program is a flat list of instructions. A loop is two of them, one at its head and one at its
end, and the head knows the index of the end.

Statements are flattened in two passes. The first lays out heads, bodies and ends in order and
leaves the indices at zero. The second finds for every head the end that closes it, by scanning
forward and counting: it looks at the instructions only, so it can link any list, bracketed or
not.

## Main definitions

* `Instruction.ofStmts` — the first pass
* `Program.loopEnd` — the end that closes a head
* `Program.link` — the second pass
* `Program.ofStmts` — both
-/

namespace Stepwise

/-- One step of a program. -/
inductive Instruction where
  /-- The head of a loop, with the index of its end. -/
  | loop (condition : Expr) (stop : Nat)
  /-- The end of a loop. -/
  | loopEnd
  | assign (target : String) (value : Expr)
  | write (args : List Expr)
deriving DecidableEq

namespace Instruction

/-- What a trace calls an instruction. -/
def name : Instruction → String
  | loop .. => "while"
  | loopEnd => "end-while"
  | assign .. => "assignment"
  | write _ => "write"

/-- An instruction as it is shown. -/
def display : Instruction → String
  | loop condition stop => "while " ++ condition.display ++ " -> " ++ toString stop
  | loopEnd => "end-while"
  | assign target value => target ++ " = " ++ value.display
  | write args => "write(" ++ ", ".intercalate (args.map Expr.display) ++ ")"

/-- Whether an instruction is the head of a loop. -/
def isLoop : Instruction → Bool
  | loop .. => true
  | _ => false

/-- The same instruction in a program that stands behind `offset` others. -/
def shift (offset : Nat) : Instruction → Instruction
  | loop condition stop => loop condition (offset + stop)
  | i => i

mutual

/-- The instructions of a statement, with all indices at zero. -/
def ofStmt : Stmt → List Instruction
  | .loop condition body => loop condition 0 :: (ofStmts body ++ [loopEnd])
  | .assign target value => [assign target value]
  | .write args => [write args]

/-- The instructions of a list of statements, with all indices at zero. -/
def ofStmts : List Stmt → List Instruction
  | [] => []
  | s :: rest => ofStmt s ++ ofStmts rest

end

@[simp] theorem ofStmts_nil : ofStmts [] = [] := by simp only [ofStmts]

@[simp] theorem ofStmts_cons (s : Stmt) (rest : List Stmt) :
    ofStmts (s :: rest) = ofStmt s ++ ofStmts rest := by simp only [ofStmts]

@[simp] theorem ofStmts_append (as bs : List Stmt) :
    ofStmts (as ++ bs) = ofStmts as ++ ofStmts bs := by
  induction as with
  | nil => simp
  | cons s as ih => simp [ih, List.append_assoc]

end Instruction

/-- A flat list of instructions. -/
abbrev Program := List Instruction

namespace Program

/-- How far the end lies that brings the number of open loops to zero. -/
def closingIndex? {κ : Type} [Depth κ] (depth : κ) : Program → Option Nat
  | [] => none
  | .loop .. :: rest => (closingIndex? (Depth.up depth) rest).map (· + 1)
  | .loopEnd :: rest =>
    let depth := Depth.down depth
    if Depth.isZero depth then some 0 else (closingIndex? depth rest).map (· + 1)
  | _ :: rest => (closingIndex? depth rest).map (· + 1)

/-- The index of the end that closes a loop with its head at `start`, the length of the program
if there is none. Loops are counted in `κ`. -/
def loopEndIn (κ : Type) [Depth κ] (program : Program) (start : Nat) : Nat :=
  match closingIndex? (Depth.one : κ) (program.drop (start + 1)) with
  | some distance => start + 1 + distance
  | none => program.length

/-- The program with every head pointing to the end that closes it. The ends that are found do not
depend on where the heads pointed before. -/
def linkIn (κ : Type) [Depth κ] (program : Program) : Program :=
  program.mapIdx fun start i =>
    match i with
    | .loop condition _ => .loop condition (loopEndIn κ program start)
    | i => i

@[simp] theorem length_linkIn (κ : Type) [Depth κ] (program : Program) :
    (linkIn κ program).length = program.length := by simp [linkIn]

/-- Linking changes nothing but where heads point. -/
theorem name_linkIn (κ : Type) [Depth κ] (program : Program) :
    (linkIn κ program).map Instruction.name = program.map Instruction.name := by
  refine List.ext_getElem (by simp) fun i h₁ h₂ => ?_
  simp only [linkIn, List.getElem_map, List.getElem_mapIdx]
  split <;> rename_i heq
  · rw [heq]
    rfl
  · rfl

/-- The index of the end that closes a loop with its head at `start`. -/
abbrev loopEnd (program : Program) (start : Nat) : Nat := loopEndIn Int program start

/-- The program with every head pointing to the end that closes it. -/
abbrev link (program : Program) : Program := linkIn Int program

/-- The program of a list of statements. -/
def ofStmts (stmts : List Stmt) : Program := link (Instruction.ofStmts stmts)

end Program

end Stepwise
