import StackCompiler.Frame.Code
import StackCompiler.Journal.Basic
import StackCompiler.Ssa.Function

-- The code of a function as far as its calls and its frame go. Parameters stay in the registers in
-- which they come, and the result of every call takes the next free register of its class, so that
-- later calls have to save it.

namespace StackCompiler

open Machine (Instruction)
open Ssa (ValueId)

-- The calls of a function, block by block in layout order.
def Ssa.Function.calls (f : Ssa.Function) : List (ValueId × Ssa.Call) :=
  f.layout.flatMap fun b => (f.instructions b).filterMap fun (v, d) =>
    match d.op with
    | .call c => some (v, c)
    | _ => none

-- The parameters with their types.
def Ssa.Function.typedParams (f : Ssa.Function) : List (ValueId × Scalar) :=
  f.params.filterMap fun v => ((f.value? v).bind Ssa.ValueDef.type).map fun type => (v, type)

namespace Codegen

def allocate (regs : RegisterFile) (c : RegisterClass) (owner : ValueId) :
    Journaled AllocationError (Register × RegisterFile) := do
  let (r, regs) ← ofExcept (outcome (RegisterFile.allocate c owner) regs)
  Journaled.note (.registerAssigned r owner)
  return (r, regs)

def allocateFixed (regs : RegisterFile) (r : Register) (owner : ValueId) :
    Journaled AllocationError RegisterFile := do
  let (_, regs) ← ofExcept (outcome (RegisterFile.allocateFixed r owner) regs)
  Journaled.note (.registerAssigned r owner)
  return regs

-- A call with the live registers saved around it.
def call (f : Frame) (site : ValueId) (callee : String) (dest : Option Register) :
    Journaled CompileError (List Instruction) := do
  let code ← ofExcept (f.callCode site callee dest)
  Journaled.note (.callSaves callee (f.savedOverCall site dest).length)
  return code

-- The whole code of a function around its body.
def function (f : Frame) (body : List Instruction) : Journaled CompileError (List Instruction) := do
  let code ← ofExcept (f.code body)
  Journaled.note (.codeGenerated f.name code.length)
  return code

-- Pins parameters to their argument registers.
def pinParams (regs : RegisterFile) :
    List (ValueId × Register) → Journaled AllocationError RegisterFile
  | [] => return regs
  | (v, r) :: rest => do pinParams (← allocateFixed regs r v) rest

-- A register for the result of a call, if it has one.
def allocateResult (regs : RegisterFile) (site : ValueId) (result : Option Scalar) :
    Journaled AllocationError RegisterFile :=
  match result.bind RegisterClass.ofType? with
  | some c => do return (← allocate regs c site).2
  | none => return regs

-- The code of calls, one after the other.
def callSequence (f : Frame) (regs : RegisterFile) :
    List (ValueId × Ssa.Call) → Journaled CompileError (Frame × RegisterFile × List Instruction)
  | [] => return (f, regs, [])
  | (site, c) :: rest => do
    let dest := c.result.map Convention.resultRegister
    let f := f.recordCall regs site dest
    let code ← call f site c.callee dest
    let regs ← EStateM.adaptExcept .allocation (allocateResult regs site c.result)
    let (f, regs, tail) ← callSequence f regs rest
    return (f, regs, code ++ tail)

-- The frame and the code of a function that reserves `stackSize` bytes and has these constants.
def lowered (f : Ssa.Function) (stackSize : Nat) (pool : List PoolValue) :
    Journaled CompileError (Frame × List Instruction) := do
  let params := f.typedParams
  let frame ← ofExcept (Frame.ofSignature f.name (params.map Prod.snd) f.result)
  let frame := pool.foldl (fun frame value => (frame.addConstant value).2) { frame with stackSize }
  let pins := (params.map Prod.fst).zip frame.arguments
  let regs ← EStateM.adaptExcept .allocation (pinParams .empty pins)
  let (frame, regs, body) ← callSequence frame regs f.calls
  let frame := frame.commit regs
  return (frame, ← function frame body)

end Codegen

end StackCompiler
