import StackCompiler.Proofs.Semantics.Run
import StackCompiler.Ssa.Function
import Mathlib.Logic.Function.Basic

-- The meaning of single-assignment code: a machine that runs through the instructions of a block
-- and goes to the next block along the edge that the terminator takes.

namespace StackCompiler.Ssa

-- What a value is when the code runs. The addresses of stack slots and globals are no pointers into
-- memory.
inductive Datum (I : Interpretation) where
  | value (x : I.Value)
  | slot (id : ValueId)
  | global (id : GlobalId)

structure Config (I : Interpretation) where
  block : BlockId
  -- The instructions of the block that are still to come.
  rest : List (ValueId × ValueDef)
  env : ValueId → Option (Datum I)
  -- What the stack slots hold. Nothing is there before the first store.
  slots : ValueId → Option I.Value

-- What a step of the machine gives.
abbrev Result (I : Interpretation) :=
  Next (Config I) (Option I.Value)

-- The type of a value that exists and has one.
def Function.type? (f : Function) (v : ValueId) : Option Scalar :=
  (f.value? v).bind ValueDef.type

-- The instructions of a block that belongs to the function.
def Function.code (f : Function) (b : BlockId) : List (ValueId × ValueDef) :=
  if b ∈ f.layout then f.instructions b else []

-- The value that a phi takes if control comes from block `p`.
def Op.source? (p : BlockId) : Op → Option ValueId
  | phi incoming => incoming.lookup p
  | _ => none

namespace Config

variable {I : Interpretation}

def read (c : Config I) (v : ValueId) : Option I.Value :=
  match c.env v with
  | some (.value x) => some x
  | _ => none

def assign (c : Config I) (v : ValueId) (d : Datum I) : Config I :=
  { c with env := Function.update c.env v (some d) }

-- All phis of a block take their values at once.
def merge (c : Config I) (phis : List (ValueId × ValueDef)) : Config I :=
  { c with env := fun v =>
      match phis.lookup v with
      | some d => (d.op.source? c.block).bind c.env
      | none => c.env v }

-- Goes to a block.
def enter (f : Function) (c : Config I) (b : BlockId) : Config I :=
  { c.merge ((f.code b).takeWhile (·.2.op.isPhi)) with
    block := b
    rest := (f.code b).dropWhile (·.2.op.isPhi) }

def load (c : Config I) (type : Scalar) : Datum I → Option (I.Effect I.Value)
  | .value x => some (I.load type x)
  | .slot id => (c.slots id).map pure
  | .global id => some (Interpretation.getGlobal id)

def store (c : Config I) (type : Scalar) (x : I.Value) : Datum I → I.Effect (Config I)
  | .value a => do
    I.store type x a
    return c
  | .slot id => return { c with slots := Function.update c.slots id (some x) }
  | .global id => do
    Interpretation.setGlobal id x
    return c

-- What an operation computes that yields a value of that type.
def compute (f : Function) (c : Config I) (type : Scalar) : Op → Option (I.Effect I.Value)
  | .const value => some (I.constant type value)
  | .binary op lhs rhs => do
    let x ← c.read lhs
    let y ← c.read rhs
    return I.binary type op x y
  | .neg operand => do
    let x ← c.read operand
    return I.neg type x
  | .cast operand => do
    let x ← c.read operand
    let source ← f.type? operand
    return I.cast source type x
  | .load address => do
    let d ← c.env address
    c.load type d
  | _ => none

-- Executes the instruction `v`, with `d` as its definition.
def execute (f : Function) (c : Config I) (v : ValueId) (d : ValueDef) :
    Option (I.Effect (Result I)) :=
  match d.op with
  | .alloc _ _ => some (return .run (c.assign v (.slot v)))
  | .globalAddr id => some (return .run (c.assign v (.global id)))
  | .store value address => do
    let x ← c.read value
    let type ← f.type? value
    let a ← c.env address
    return do return .run (← c.store type x a)
  | .call call => do
    let args ← call.args.mapM c.read
    return do
      let x ← I.call call.callee args
      return .run (if d.type.isSome then c.assign v (.value x) else c)
  | .jump target => some (return .run (c.enter f target))
  | .branch lhs cond rhs yes no => do
    let x ← c.read lhs
    let y ← c.read rhs
    let type ← f.type? lhs
    return do
      if ← I.compare type cond x y then
        return .run (c.enter f yes)
      return .run (c.enter f no)
  | .ret value => do
    let x ← c.read value
    return return .halt (some x)
  | .exit => some (return .halt none)
  | op => do
    let type ← d.type
    let x ← c.compute f type op
    return do return .run (c.assign v (.value (← x)))

def step (f : Function) (c : Config I) : Option (I.Effect (Result I)) :=
  match c.rest with
  | [] => none
  | (v, d) :: rest => { c with rest := rest }.execute f v d

-- The parameters of a function have the values of the arguments from the start.
def start (f : Function) (args : List I.Value) (entry : BlockId) : Config I where
  block := entry
  rest := f.code entry
  env v :=
    match (f.value? v).map ValueDef.op with
    | some (.param index) => args[index]?.map .value
    | _ => none
  slots _ := none

end Config

-- A call of the function with these arguments ends with an outcome.
def Function.Ends {I : Interpretation} (f : Function) (args : List I.Value)
    (w : World I.Value I.Memory) (o : I.Outcome) : Prop :=
  ∃ entry, f.entry = some entry ∧
    StackCompiler.Ends (Config.step f) (pure (.run (Config.start f args entry))) w o

end StackCompiler.Ssa
