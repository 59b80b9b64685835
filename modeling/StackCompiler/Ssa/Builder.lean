import StackCompiler.Ssa.Module
import StackCompiler.Ssa.Verifier

-- Step by step construction of a module: one function is open at a time, and instructions go to the
-- end of its active block.

namespace StackCompiler.Ssa

structure Builder where
  module : Module
  function : Option Function := none
  block : Option BlockId := none
deriving DecidableEq, Repr

abbrev Build := EStateM CompileError Builder

namespace Builder

def new (name : String) : Builder :=
  { module := { name } }

def addGlobal (g : GlobalVar) : Build GlobalId :=
  modifyGet fun b =>
    let (id, m) := b.module.addGlobal g
    (id, { b with module := m })

def addExternal (e : External) : Build Unit :=
  modify fun b => { b with module := { b.module with externals := b.module.externals ++ [e] } }

-- Opens a function, or a procedure if there is no result.
def start (name : String) (result : Option Scalar) : Build Unit := do
  if let some opened := (← get).function then
    throw (.invariant (.nestedFunction name opened.name))
  modify fun b => { b with function := some (.empty name result), block := none }

def openFunction : Build Function := do
  match (← get).function with
  | some f => return f
  | none => throw (.invariant .noFunction)

def activeBlock : Build BlockId := do
  match (← get).block with
  | some id => return id
  | none => throw (.invariant .noBlock)

-- Applies a change to the open function.
def edit (change : Function.Edit α) : Build α := do
  let f ← openFunction
  zoom (fun _ => f) (fun g b => { b with function := some g }) change

def addParam (name : String) (type : Scalar) : Build ValueId :=
  edit (modifyGet (·.addParam name type))

def addBlock (name : String) : Build BlockId :=
  edit (modifyGet (·.addBlock name))

-- Makes a block the active one. Whether it exists shows when it is used.
def setBlock (id : BlockId) : Build Unit :=
  modify fun b => { b with block := some id }

def isClosed : Build Bool := do
  let id ← activeBlock
  let f ← openFunction
  if f.hasBlock id then return f.isClosed id else throw (.dangling (.block id))

-- Adds an instruction at the end of the active block.
def emit (name : String) (type : Option Scalar) (op : Op) : Build ValueId := do
  let id ← activeBlock
  edit (Function.append id name type op)

def typeOf (v : ValueId) : Build (Option Scalar) := do
  ofExcept ((← openFunction).typeOf v)

-- Closes the open function and adds it to the module.
def finishFunction : Build Function := do
  let f ← openFunction
  modify fun b => { b with
    module := { b.module with functions := b.module.functions ++ [f] }
    function := none
    block := none }
  return f

def finish : Build Module := do
  let b ← get
  if let some opened := b.function then
    throw (.invariant (.unfinished opened.name))
  return b.module

end Builder

end StackCompiler.Ssa
