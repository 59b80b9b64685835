import StackCompiler.Convention.Admission
import StackCompiler.Ssa.Builder

-- The state of lowering a function body: the builder with the single-assignment code so far, the
-- operand stack and the open regions. Operands and regions stand in lists with the top and the
-- innermost one first.

namespace StackCompiler.Lowering

open Ssa (BlockId Build Builder GlobalId Op ValueId)

-- What stands on the operand stack. A comparison is not a value yet; only a branch can take it.
inductive Operand where
  | value (id : ValueId)
  | comparison (lhs : ValueId) (cond : Comparison) (rhs : ValueId)
deriving DecidableEq, Repr

-- The result of a region, with the values that the exits so far bring.
structure Result where
  type : Scalar
  incoming : List (BlockId × ValueId)
deriving DecidableEq, Repr

inductive RegionKind where
  | block
  -- A branch to a loop goes back to its header.
  | loop (header : BlockId)
  -- The blocks that left the region while its continuation may still become the other branch.
  | if_ (breaks : List BlockId)
  | else_
deriving DecidableEq, Repr

structure Region where
  kind : RegionKind
  continuation : BlockId
  -- The number of the result that the region collects.
  phi : Option Nat
  -- The height of the operand stack at the region's start.
  height : Nat
  -- Whether the region was opened in live code. One that was not stays dead up to its end.
  isLive : Bool
deriving DecidableEq, Repr

-- The stack slot of a local.
structure Slot where
  type : Scalar
  address : ValueId
deriving DecidableEq, Repr

structure GlobalSlot where
  type : Scalar
  isMutable : Bool
  id : GlobalId
deriving DecidableEq, Repr

structure Callee where
  name : String
  signature : Bytecode.Signature
deriving DecidableEq, Repr

-- What the functions of a module can refer to.
structure Space where
  globals : List GlobalSlot := []
  signatures : List Bytecode.Signature := []
  -- The names of functions by number. An entry hides those behind it.
  names : List (Nat × String) := []
deriving DecidableEq, Repr

-- What the instructions of a body can refer to.
structure Context extends Space where
  locals : List Slot
  result : Option Scalar
deriving DecidableEq, Repr

structure State where
  journal : Journal
  -- How many blocks the functions of the module have so far.
  blockCount : Nat
  builder : Builder
  stack : List Operand
  -- The results of all regions of the function, also of those that are closed.
  phis : List Result
  regions : List Region
  -- Nothing leads to the active block.
  isDead : Bool
  -- The end of the body was seen.
  isEnded : Bool
deriving DecidableEq, Repr

-- The lowest height to which the innermost region may pop.
def State.floor (s : State) : Nat :=
  match s.regions with
  | [] => 0
  | r :: _ => r.height

abbrev Lower := EStateM CompileError State

instance : MonadLift (Journaled CompileError) Lower where
  monadLift x := zoom State.journal (fun j s => { s with journal := j }) x

instance : MonadLift Build Lower where
  monadLift x := zoom State.builder (fun b s => { s with builder := b }) x

def note (e : Event) : Lower Unit :=
  modify fun s => { s with journal := s.journal.record e }

-- Adds a block to the function. Its name has a number that no other block of the module has.
def newBlock : Lower BlockId := do
  modify fun s => { s with blockCount := s.blockCount + 1 }
  let number := (← get).blockCount
  note (.blockNumbered number)
  let f ← Builder.openFunction
  note .blockCreated
  Builder.addBlock (f.name ++ "_block" ++ toString number)

-- Adds an instruction that yields a value.
def define (name : String) (type : Scalar) (op : Op) : Lower ValueId :=
  Builder.emit name (some type) op

-- Adds an instruction for its effect.
def perform (op : Op) : Lower Unit :=
  discard (Builder.emit "" none op : Lower ValueId)

def typeOf (v : ValueId) : Lower Scalar := do
  match ← Builder.typeOf v with
  | some type => return type
  | none => throw (.invariant (.untyped v))

-- Checks that a value has the type that its use expects.
def expectType (context : TypeContext) (expected : Scalar) (v : ValueId) : Lower Unit := do
  let found ← typeOf v
  if found ≠ expected then
    throw (.typeMismatch context expected found)

def push (v : ValueId) : Lower Unit :=
  modify fun s => { s with stack := .value v :: s.stack }

def pushComparison (lhs : ValueId) (cond : Comparison) (rhs : ValueId) : Lower Unit :=
  modify fun s => { s with stack := .comparison lhs cond rhs :: s.stack }

-- Drops what stands above a height.
def truncate (height : Nat) : Lower Unit :=
  modify fun s => { s with stack := s.stack.drop (s.stack.length - height) }

end StackCompiler.Lowering
