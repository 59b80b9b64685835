import StackCompiler.Ssa.Flow

-- The check of a finished function: every block is reachable and ends in its only terminator, phis
-- stand first in their block and take one value from each predecessor, and the operands of a binary
-- operator have the type of its result.

namespace StackCompiler.Ssa.Function

def checkPhi (f : Function) (b : BlockId) (incoming : List (BlockId × ValueId)) :
    Except Defect Unit :=
  let sources := incoming.map Prod.fst
  let preds := f.predecessors b
  if ¬sources.Nodup then
    .error .repeatedIncoming
  else if !(sources.all preds.contains && preds.all sources.contains) then
    .error .incomingMismatch
  else
    .ok ()

-- Whether a binary operator's operands have the type of its result. The right operand is looked at
-- only if the left one passes.
def operandsAgree (f : Function) (type : Option Scalar) (lhs rhs : ValueId) :
    Except CompileError Bool := do
  if (← f.typeOf lhs) ≠ type then
    return false
  return (← f.typeOf rhs) = type

def blockDefect (f : Function) (b : BlockId) (what : Defect) : CompileError :=
  .invariant (.defect f.name (f.blockName b) what)

-- Checks the instructions of a block before its last one. Phis are allowed only while `inPhis`.
def checkBody (f : Function) (b : BlockId) :
    (inPhis : Bool) → List ValueDef → Except CompileError Unit
  | _, [] => .ok ()
  | inPhis, d :: rest =>
    if d.op.isTerminator then
      .error (f.blockDefect b .earlyTerminator)
    else
      match d.op with
      | .phi incoming =>
        if !inPhis then
          .error (f.blockDefect b .latePhi)
        else
          match f.checkPhi b incoming with
          | .error what => .error (f.blockDefect b what)
          | .ok () => checkBody f b inPhis rest
      | .binary _ lhs rhs => do
        if ← f.operandsAgree d.type lhs rhs then
          checkBody f b false rest
        else
          .error (f.blockDefect b .operandType)
      | _ => checkBody f b false rest

def checkBlock (f : Function) (entry : BlockId) (live : List BlockId) (b : BlockId) :
    Except CompileError Unit :=
  let defs := (f.instructions b).map Prod.snd
  if !live.contains b then
    .error (f.blockDefect b .unreachable)
  else if b = entry ∧ f.phis b ≠ [] then
    .error (f.blockDefect b .entryPhi)
  else
    match defs.getLast? with
    | none => .error (f.blockDefect b .empty)
    | some last =>
      if !last.op.isTerminator then .error (f.blockDefect b .unterminated)
      else f.checkBody b true defs.dropLast

-- Checks the blocks in layout order and gives the first fault.
def verify (f : Function) : Except CompileError Unit := do
  let some entry := f.entry | throw (.invariant (.noEntry f.name))
  f.checkEdges
  f.layout.forM (f.checkBlock entry f.reachable)

end StackCompiler.Ssa.Function
