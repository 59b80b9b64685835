import StackCompiler.Journal.Basic
import StackCompiler.Ssa.Flow

-- Pruning with a note in the journal.

namespace StackCompiler.Ssa.Function

-- Prunes a function and notes how many blocks it lost, if any.
def pruneNoted (f : Function) : Journaled CompileError (Nat × Function) := do
  let (removed, g) := f.prune
  if 0 < removed then
    Journaled.note (.unreachableRemoved f.name removed)
  return (removed, g)

-- Prunes a function, unless an edge leads nowhere.
def checkedPrune (f : Function) : Journaled CompileError (Nat × Function) := do
  ofExcept f.checkEdges
  f.pruneNoted

end StackCompiler.Ssa.Function
