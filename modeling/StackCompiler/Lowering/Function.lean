import StackCompiler.Lowering.Step
import StackCompiler.Ssa.Cleanup
import StackCompiler.Ssa.Printer
import StackCompiler.Ssa.Verifier

-- The lowering of a function: slots for its parameters and locals, its body, and the clean-up.

namespace StackCompiler.Lowering

open Bytecode (Instruction ValueType)
open Ssa (Builder Function ValueId)

structure Options where
  -- Check every finished function.
  verify : Bool := true
  -- Print every finished function to the log.
  print : Bool := false
deriving DecidableEq, Repr

-- A stack slot for the local of that index.
def allocLocal (index : Nat) (type : Scalar) : Lower ValueId :=
  define ("local" ++ toString index) .ptr (.alloc type.size type.size)

-- Gives the parameters their slots, in which they can change like other locals.
def declareParams (index : Nat) : List Scalar → Lower (List Slot)
  | [] => return []
  | type :: types => do
    let param ← Builder.addParam ("param" ++ toString index) type
    let address ← allocLocal index type
    perform (.store param address)
    return ⟨type, address⟩ :: (← declareParams (index + 1) types)

-- Gives the locals their slots, with zero in them.
def declareLocals (function : String) (index : Nat) : List Scalar → Lower (List Slot)
  | [] => return []
  | type :: types => do
    let address ← allocLocal index type
    let zero ← define "zero" type (.const (.zero type))
    perform (.store zero address)
    note (.localDeclared index function)
    return ⟨type, address⟩ :: (← declareLocals function (index + 1) types)

-- Opens a function, up to its first instruction.
def prepare (space : Space) (self : Callee) (locals : List ValueType) : Lower Context := do
  note (.functionStarted self.name self.signature)
  let result ← ofExcept self.signature.result
  Convention.accept self.name self.signature.paramTypes
  Builder.start self.name result
  modify fun s =>
    { s with stack := [], phis := [], regions := [], isDead := false, isEnded := false }
  Builder.setBlock (← newBlock)
  let params ← declareParams 0 self.signature.paramTypes
  let locals ← declareLocals self.name params.length (locals.map ValueType.scalar)
  return { toSpace := space, locals := params ++ locals, result }

-- Lowers the instructions of a body one after the other. Nothing may follow the end.
def lowerCode (cx : Context) (function : String) (total : Nat) :
    (position : Nat) → List Instruction → Lower Unit
  | _, [] => pure ()
  | position, i :: rest => do
    note (.instructionReached position total i.opcode)
    if (← get).isEnded then
      throw (.malformed (.afterEnd i.opcode function))
    note (.instructionLowered i.opcode)
    step cx i
    lowerCode cx function total (position + 1) rest

-- Ends the last block of a body, unless a branch has ended it.
def closeBody (result : Option Scalar) : Lower Unit := do
  if !(← Builder.isClosed) then
    if (← get).isDead then perform .exit else emitReturn result "end"

-- Takes out the blocks that nothing leads to.
def pruneFunction : Lower Unit := do
  let (removed, f) ← (← Builder.openFunction).pruneNoted
  Builder.edit (set f)
  note (.blocksPruned removed)

-- Lowers a body to a function of reachable blocks.
def translate (space : Space) (self : Callee) (body : Bytecode.Body) : Lower Unit := do
  let cx ← prepare space self body.locals
  lowerCode cx self.name body.code.length 1 body.code
  let s ← get
  if !s.regions.isEmpty then
    throw (.malformed (.openRegions s.regions.length self.name))
  closeBody cx.result
  let left := (← get).stack.length
  if 0 < left then
    note (.operandsLeft self.name left)
  pruneFunction

-- Prints and checks the open function, as far as the options ask for it.
def inspect (options : Options) : Lower Unit := do
  let f ← Builder.openFunction
  if options.print then
    note (.functionPrinted f.text)
  if options.verify then
    ofExcept f.verify

def lowerFunction (options : Options) (space : Space) (self : Callee) (body : Bytecode.Body) :
    Lower Function := do
  translate space self body
  inspect options
  let f ← Builder.finishFunction
  note (.functionLowered f.name f.layout.length)
  return f

end StackCompiler.Lowering
