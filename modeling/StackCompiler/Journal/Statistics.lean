import StackCompiler.Journal.Event

-- Statistics: what the events of a compilation add up to, and the report on it.

namespace StackCompiler

-- Counts by name, in the order in which the names first came.
abbrev Tally := List (String × Nat)

namespace Tally

def bump (name : String) : Tally → Tally
  | [] => [(name, 1)]
  | (other, count) :: rest =>
    if other = name then (other, count + 1) :: rest else (other, count) :: bump name rest

def total (t : Tally) : Nat :=
  t.foldr (fun entry sum => entry.2 + sum) 0

@[simp]
theorem total_bump (name : String) (t : Tally) : total (bump name t) = total t + 1 := by
  induction t with
  | nil => rfl
  | cons entry rest ih =>
    simp only [bump, total] at ih ⊢
    split <;> simp [ih] <;> omega

-- Larger counts first, equal counts by name.
def ranked (t : Tally) : Tally :=
  t.mergeSort fun a b => a.2 > b.2 || (a.2 == b.2 && decide (a.1 ≤ b.1))

end Tally

@[ext]
structure Statistics where
  functions : Nat := 0
  instructions : Nat := 0
  opcodes : Tally := []
  blocksCreated : Nat := 0
  blocksPruned : Nat := 0
  phis : Nat := 0
  calls : Nat := 0
  largestBlocks : Nat := 0
  largestName : String := ""
deriving DecidableEq, Repr

namespace Statistics

def record (s : Statistics) : Event → Statistics
  | .functionLowered name blocks =>
    let s := { s with functions := s.functions + 1 }
    if s.largestBlocks < blocks then { s with largestBlocks := blocks, largestName := name } else s
  | .instructionLowered opcode =>
    { s with instructions := s.instructions + 1, opcodes := s.opcodes.bump opcode }
  | .blockCreated => { s with blocksCreated := s.blocksCreated + 1 }
  | .blocksPruned count => { s with blocksPruned := s.blocksPruned + count }
  | .phiCreated => { s with phis := s.phis + 1 }
  | .callLowered _ => { s with calls := s.calls + 1 }
  | _ => s

-- The totals, the largest function if any has a name, and the ten most frequent opcodes.
def report (s : Statistics) : String :=
  let totals :=
    ["Compilation Session Statistics:",
     s!"  Functions lowered: {s.functions}",
     s!"  Instructions lowered: {s.instructions}",
     s!"  Blocks created: {s.blocksCreated}",
     s!"  Blocks pruned: {s.blocksPruned}",
     s!"  Phis created: {s.phis}",
     s!"  Calls lowered: {s.calls}"]
  let largest :=
    if s.largestName.isEmpty then []
    else [s!"  Largest function: {s.largestName} ({s.largestBlocks} blocks)"]
  let breakdown :=
    if s.opcodes.isEmpty then []
    else "  Instruction breakdown:" ::
      (s.opcodes.ranked.take 10).map fun (opcode, count) => s!"    {opcode}: {count}"
  String.join ((totals ++ largest ++ breakdown).map (· ++ "\n"))

end Statistics

end StackCompiler
