import StackCompiler.Ssa.Function

-- Reachability along the edges of a function, and the removal of blocks that no path reaches.

namespace StackCompiler.Ssa

theorem Op.length_successors_le (op : Op) : op.successors.length ≤ 2 := by
  cases op <;> simp [successors]

namespace Function

theorem length_successors_le (f : Function) (b : BlockId) : (f.successors b).length ≤ 2 := by
  rw [successors]
  split
  case h_1 op _ => exact op.length_successors_le
  case h_2 => exact Nat.zero_le 2

-- Every block that was ever created, whether or not the layout still lists it.
def created (f : Function) : List BlockId :=
  (List.range f.blocks.size).map BlockId.mk

-- The blocks that a path from the entry reaches, each once.
def reachable (f : Function) : List BlockId :=
  go f.created f.entry.toList
where
  -- Visits the pending blocks that were not visited yet. Every visit takes a block out of `unseen`,
  -- and at most two more are pending then.
  go (unseen : List BlockId) : List BlockId → List BlockId
    | [] => []
    | b :: pending =>
      if b ∈ unseen then b :: go (unseen.erase b) (f.successors b ++ pending)
      else go unseen pending
  termination_by pending => 3 * unseen.length + pending.length
  decreasing_by
    · have : 0 < unseen.length := List.length_pos_of_mem ‹_›
      have := f.length_successors_le b
      simp [List.length_erase_of_mem ‹_›]
      omega
    · simp

-- A block that some reachable block goes to although it was never created.
def danglingEdge? (f : Function) : Option BlockId :=
  (f.reachable.flatMap f.successors).find? fun b => !f.hasBlock b

-- Refuses a function in which a path leads to a block that was never created.
def checkEdges (f : Function) : Except CompileError Unit :=
  match f.danglingEdge? with
  | some b => .error (.dangling (.block b))
  | none => .ok ()

-- Takes the unreachable blocks out of the layout, and out of the phis of the blocks that stay.
-- Gives the number of blocks taken out.
def prune (f : Function) : Nat × Function :=
  let live := f.reachable
  let layout := f.layout.filter live.contains
  let removed := f.layout.length - layout.length
  if removed = 0 then
    (0, f)
  else
    (removed, { f with
      layout := layout
      values := f.values.map fun d =>
        if d.block.any layout.contains then { d with op := d.op.filterIncoming live.contains }
        else d })

-- The reachable blocks in ascending order, unless an edge leads nowhere.
def checkedReachable (f : Function) : Except CompileError (List BlockId) := do
  f.checkEdges
  return f.created.filter f.reachable.contains

end Function

end StackCompiler.Ssa
