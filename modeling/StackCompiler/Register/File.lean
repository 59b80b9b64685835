import StackCompiler.Error
import StackCompiler.Register.Class
import StackCompiler.Register.Set

-- The register file of one function: which registers are live and who owns them, and every register
-- that was ever handed out.

namespace StackCompiler

@[ext]
structure RegisterFile where
  -- The live registers with their owners, in the order in which they were handed out.
  live : List (Register × Ssa.ValueId)
  used : RegisterSet
deriving DecidableEq, Repr

namespace RegisterFile

def empty : RegisterFile :=
  ⟨[], .empty⟩

def liveRegisters (f : RegisterFile) : List Register :=
  f.live.map Prod.fst

def isLive (f : RegisterFile) (r : Register) : Bool :=
  f.liveRegisters.contains r

def owner? (f : RegisterFile) (r : Register) : Option Ssa.ValueId :=
  f.live.lookup r

def assign (f : RegisterFile) (r : Register) (owner : Ssa.ValueId) : RegisterFile :=
  ⟨f.live ++ [(r, owner)], f.used.insert r⟩

-- A request that can fail and that keeps what it did before.
abbrev Request := EStateM AllocationError RegisterFile

-- Hands out the first register of a class that is free.
def allocate (c : RegisterClass) (owner : Ssa.ValueId) : Request Register := do
  let f ← get
  match c.registers.find? (!f.isLive ·) with
  | some r =>
    set (f.assign r owner)
    return r
  | none => throw (.noneFree c.name)

-- Hands out one particular register.
def allocateFixed (r : Register) (owner : Ssa.ValueId) : Request Unit := do
  let f ← get
  if f.isLive r then
    throw (.inUse r)
  set (f.assign r owner)

def free (r : Register) : Request Unit := do
  let f ← get
  if !f.isLive r then
    throw (.notAllocated r)
  set { f with live := f.live.eraseP (·.1 == r) }

-- Frees every register of an owner.
def freeOwner (f : RegisterFile) (owner : Ssa.ValueId) : RegisterFile :=
  { f with live := f.live.filter (·.2 != owner) }

-- The registers that must survive a call whose result goes to `dest`.
def liveAcross (f : RegisterFile) (dest : Option Register) : List Register :=
  f.liveRegisters.filter (some · != dest)

end RegisterFile

end StackCompiler
