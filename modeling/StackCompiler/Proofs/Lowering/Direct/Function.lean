import StackCompiler.Lowering.Function
import StackCompiler.Proofs.Lowering.Direct.Step

-- The lowering of a function.

namespace StackCompiler.Lowering.Direct

open Bytecode (Instruction ValueType)
open Ssa (Function ValueId)

-- A stack slot for the local of that index.
def allocLocal (index : Nat) (type : Scalar) : Lower ValueId :=
  define ("local" ++ toString index) .ptr (.alloc type.size type.size)

-- Gives the parameters their slots, in which they can change like other locals.
def declareParams (index : Nat) : List Scalar → Lower (List Slot)
  | [] => return []
  | type :: types => do
    let s ← get
    let (param, f) := s.function.addParam ("param" ++ toString index) type
    set { s with function := f }
    let address ← allocLocal index type
    perform (.store param address)
    return ⟨type, address⟩ :: (← declareParams (index + 1) types)

-- Gives the locals their slots, with zero in them.
def declareLocals (function : String) (index : Nat) : List Scalar → Lower (List Slot)
  | [] => return []
  | type :: types => do
    let address ← allocLocal index type
    let zero ← define "zero" type (.const (.zero type))
    perform (.store zero address)
    note (.localDeclared index function)
    return ⟨type, address⟩ :: (← declareLocals function (index + 1) types)

-- Lowers the instructions of a body one after the other. Nothing may follow the end.
def lowerCode (cx : Context) (function : String) (total : Nat) :
    (position : Nat) → List Instruction → Lower Unit
  | _, [] => pure ()
  | position, i :: rest => do
    note (.instructionReached position total i.opcode)
    if (← get).isEnded then
      throw (.malformed (.afterEnd i.opcode function))
    note (.instructionLowered i.opcode)
    step cx i
    lowerCode cx function total (position + 1) rest

-- Ends the last block of a body, unless a branch has ended it.
def closeBody (result : Option Scalar) : Lower Unit := do
  let s ← get
  if !s.function.hasBlock s.block then
    throw (.dangling (.block s.block))
  if !s.function.isClosed s.block then
    if s.isDead then perform .exit else emitReturn result "end"

-- Takes out the blocks that nothing leads to.
def pruneFunction : Lower Unit := do
  let (removed, f) ← (← get).function.pruneNoted
  modify fun s => { s with function := f }
  note (.blocksPruned removed)

-- Lowers a body to a function of reachable blocks.
def translate (globals : List GlobalSlot) (callees : List Callee) (self : Callee)
    (body : Bytecode.Body) : Lower Function := do
  note (.functionStarted self.name self.signature)
  let result ← ofExcept self.signature.result
  Convention.accept self.name self.signature.paramTypes
  modify fun s =>
    { s with
      function := .empty self.name result
      stack := []
      regions := []
      isDead := false
      isEnded := false }
  setBlock (← newBlock)
  let params ← declareParams 0 self.signature.paramTypes
  let locals ← declareLocals self.name params.length (body.locals.map ValueType.scalar)
  let cx : Context := { globals, callees, locals := params ++ locals, result }
  lowerCode cx self.name body.code.length 1 body.code
  let s ← get
  if !s.regions.isEmpty then
    throw (.malformed (.openRegions s.regions.length self.name))
  closeBody result
  let left := (← get).stack.length
  if 0 < left then
    note (.operandsLeft self.name left)
  pruneFunction
  return (← get).function

-- The beginning of a function: what is done before its code is lowered.
def prepare (globals : List GlobalSlot) (callees : List Callee) (self : Callee)
    (types : List ValueType) : Lower Context := do
  note (.functionStarted self.name self.signature)
  let result ← ofExcept self.signature.result
  Convention.accept self.name self.signature.paramTypes
  modify fun s =>
    { s with
      function := .empty self.name result
      stack := []
      regions := []
      isDead := false
      isEnded := false }
  setBlock (← newBlock)
  let params ← declareParams 0 self.signature.paramTypes
  let locals ← declareLocals self.name params.length (types.map ValueType.scalar)
  return { globals, callees, locals := params ++ locals, result }

-- The end of a function, once its code is lowered.
def complete (cx : Context) (name : String) : Lower Function := do
  let s ← get
  if !s.regions.isEmpty then
    throw (.malformed (.openRegions s.regions.length name))
  closeBody cx.result
  let left := (← get).stack.length
  if 0 < left then
    note (.operandsLeft name left)
  pruneFunction
  return (← get).function

theorem translate_eq {globals : List GlobalSlot} {callees : List Callee} {own : Callee}
    {body : Bytecode.Body} : translate globals callees own body = (do
    let cx ← prepare globals callees own body.locals
    lowerCode cx own.name body.code.length 1 body.code
    complete cx own.name) := by
  simp only [translate, prepare, complete, bind_assoc, pure_bind]

-- Prints and checks a finished function, as far as the options ask for it.
def inspect (options : Options) (f : Function) : Lower Unit := do
  if options.print then
    note (.functionPrinted f.text)
  if options.verify then
    ofExcept f.verify

def report (options : Options) (f : Function) : Lower Unit := do
  inspect options f
  note (.functionLowered f.name f.layout.length)

def lowerFunction (options : Options) (globals : List GlobalSlot) (callees : List Callee)
    (self : Callee) (body : Bytecode.Body) : Lower Function := do
  let f ← translate globals callees self body
  report options f
  return f

end StackCompiler.Lowering.Direct
