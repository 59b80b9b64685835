import StackCompiler.Lowering.State

-- Lowering with the function and the block at hand. A builder can have no open function and no active
-- block, and a region knows its result only by number. In the middle of a body there always are a
-- function and a block, and every number names a result, so that the theory of lowering is about states
-- that hold them directly.

namespace StackCompiler.Lowering.Direct

open Ssa (BlockId Function Op ValueId)

structure Region where
  kind : RegionKind
  continuation : BlockId
  result : Option Result
  -- The height of the operand stack at the region's start.
  height : Nat
  -- Whether the region was opened in live code. One that was not stays dead up to its end.
  isLive : Bool
deriving DecidableEq, Repr

-- What the instructions of a body can refer to.
structure Context where
  globals : List GlobalSlot
  callees : List Callee
  locals : List Slot
  result : Option Scalar
deriving DecidableEq, Repr

@[ext]
structure State where
  journal : Journal
  -- How many blocks the functions of the module have so far.
  blockCount : Nat
  function : Function
  -- The block that code is added to.
  block : BlockId
  stack : List Operand
  regions : List Region
  -- Nothing leads to the active block.
  isDead : Bool
  -- The end of the body was seen.
  isEnded : Bool
deriving DecidableEq, Repr

-- The lowest height to which the innermost region may pop.
def State.floor (s : State) : Nat :=
  match s.regions with
  | [] => 0
  | r :: _ => r.height

abbrev Lower := EStateM CompileError State

instance : MonadLift (Journaled CompileError) Lower where
  monadLift x := zoom State.journal (fun j s => { s with journal := j }) x

def note (e : Event) : Lower Unit :=
  modify fun s => { s with journal := s.journal.record e }

-- Adds a block to the function. Its name has a number that no other block of the module has.
def newBlock : Lower BlockId := do
  let s ← get
  let number := s.blockCount + 1
  note (.blockNumbered number)
  note .blockCreated
  let (b, f) := s.function.addBlock (s.function.name ++ "_block" ++ toString number)
  modify fun s => { s with blockCount := number, function := f }
  return b

def setBlock (b : BlockId) : Lower Unit :=
  modify fun s => { s with block := b }

-- Applies a change to the function.
def edit (change : Function.Edit α) : Lower α :=
  zoom State.function (fun f s => { s with function := f }) change

theorem edit_eq_of_ok {change : Function.Edit α} {s : State} {a : α} {f : Function}
    (h : change s.function = .ok a f) : edit change s = .ok a { s with function := f } := by
  simp only [edit, zoom, h]

theorem edit_eq_of_error {change : Function.Edit α} {s : State} {e : CompileError}
    (h : change s.function = .error e s.function) : edit change s = .error e s := by
  simp only [edit, zoom, h]

-- Adds an instruction at the end of the active block.
def append (name : String) (type : Option Scalar) (op : Op) : Lower ValueId := do
  let s ← get
  edit (Function.append s.block name type op)

-- Adds an instruction that yields a value.
def define (name : String) (type : Scalar) (op : Op) : Lower ValueId :=
  append name (some type) op

-- Adds an instruction for its effect.
def perform (op : Op) : Lower Unit :=
  discard (append "" none op)

def typeOf (v : ValueId) : Lower Scalar := do
  match ← ofExcept ((← get).function.typeOf v) with
  | some type => return type
  | none => throw (.invariant (.untyped v))

-- Checks that a value has the type that its use expects.
def expectType (context : TypeContext) (expected : Scalar) (v : ValueId) : Lower Unit := do
  let found ← typeOf v
  if found ≠ expected then
    throw (.typeMismatch context expected found)

def push (v : ValueId) : Lower Unit :=
  modify fun s => { s with stack := .value v :: s.stack }

def pushComparison (lhs : ValueId) (cond : Comparison) (rhs : ValueId) : Lower Unit :=
  modify fun s => { s with stack := .comparison lhs cond rhs :: s.stack }

-- Drops what stands above a height.
def truncate (height : Nat) : Lower Unit :=
  modify fun s => { s with stack := s.stack.drop (s.stack.length - height) }

end StackCompiler.Lowering.Direct
