import StackCompiler.Codegen
import StackCompiler.Lowering.Module
import StackCompiler.Machine.Image

-- From a module of stack code to an image. What was built stays when a later step fails.

namespace StackCompiler

open Machine (Image Instruction)

-- Where code and externals are to stand, and what every frame holds.
structure Plan where
  base : BitVec 64 := 0x1000
  externalBase : BitVec 64 := 0x100000
  externalStride : BitVec 64 := 0x100
  stackSize : Nat := 0
  pool : List PoolValue := []
deriving DecidableEq, Repr

-- An empty image in which every external has its address.
def Plan.image (p : Plan) (externals : List Ssa.External) : Image :=
  externals.zipIdx.foldl
    (fun i (e, n) => i.defineSymbol e.name (p.externalBase + BitVec.ofNat 64 n * p.externalStride))
    { base := p.base }

structure Compilation where
  journal : Journal := #[]
  module : Option Ssa.Module := none
  functions : List (Frame × List Instruction) := []
  bytes : Option (List UInt8) := none
deriving DecidableEq, Repr

namespace Compilation

abbrev Compile := EStateM CompileError Compilation

instance : MonadLift (Journaled CompileError) Compile where
  monadLift x c :=
    match x c.journal with
    | .ok a j => .ok a { c with journal := j }
    | .error e j => .error e { c with journal := j }

def lower (options : Lowering.Options) (m : Bytecode.Module) : Compile Ssa.Module := do
  let module ← (m.lower options : Journaled CompileError Ssa.Module)
  modify fun c => { c with module := some module }
  return module

-- Adds code to an image.
def encode (i : Image) (code : List Instruction) : Except EncodingError Image :=
  match Image.encode code i with
  | .ok _ i => .ok i
  | .error e _ => .error e

-- Generates and encodes the functions one after the other.
def generate (p : Plan) (i : Image) : List Ssa.Function → Compile Image
  | [] => return i
  | f :: rest => do
    let (frame, code) ← (Codegen.lowered f p.stackSize p.pool : Journaled CompileError _)
    let i ← ofExcept ((encode i code).mapError .encoding)
    modify fun c => { c with functions := c.functions ++ [(frame, code)] }
    generate p i rest

-- Lowers a module, generates its functions and finishes the image.
def compile (options : Lowering.Options) (p : Plan) (m : Bytecode.Module) : Compile Unit := do
  let module ← lower options m
  let i ← generate p (p.image module.externals) module.functions
  let bytes ← ofExcept (i.finalize.mapError .encoding)
  modify fun c => { c with bytes := some bytes }

end Compilation

end StackCompiler
