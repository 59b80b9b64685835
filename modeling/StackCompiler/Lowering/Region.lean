import StackCompiler.Lowering.Operand

-- Regions: how they are opened and closed, how branches leave them, and the dead code behind a
-- branch.

namespace StackCompiler.Lowering

open Ssa (BlockId Builder Op ValueId)

-- Sets up the result that a region has to collect.
def newPhi (type : Bytecode.BlockType) : Lower (Option Nat) :=
  match type with
  | .empty => return none
  | .value type => do
    let phi := (← get).phis.length
    modify fun s => { s with phis := s.phis ++ [⟨type.scalar, []⟩] }
    return some phi
  | .signature index => throw (.unsupported (.blockSignature index))

-- What a region has collected so far.
def collected (phi : Nat) : Lower Result := do
  match (← get).phis[phi]? with
  | some r => return r
  | none => throw (.dangling (.phi phi))

def openRegion (kind : RegionKind) (continuation : BlockId) (phi : Option Nat) : Lower Unit :=
  modify fun s =>
    let region :=
      { kind, continuation, phi, height := s.stack.length, isLive := !s.isDead : Region }
    { s with regions := region :: s.regions }

-- Adds the value that the active block brings to a result.
def fillPhi (phi : Nat) (v : ValueId) : Lower Unit := do
  let b ← Builder.activeBlock
  let found ← typeOf v
  let r ← collected phi
  if found ≠ r.type then
    throw (.typeMismatch .blockResult r.type found)
  modify fun s =>
    { s with phis := s.phis.set phi { r with incoming := r.incoming ++ [(b, v)] } }

-- Takes the result of a region off the stack. It must be all that the region left there.
def popResult (region : Region) (phi : Nat) : Lower Unit := do
  let s ← get
  let above := s.stack.length - region.height
  if above ≠ 1 then
    throw (.invariant (.regionOperands above))
  match s.stack with
  | .value v :: rest =>
    set { s with stack := rest }
    fillPhi phi v
  | _ => throw (.unsupported .comparisonResult)

-- Leaves the active block for `continuation` at the end of a region, with the region's result. A
-- dead block leaves nowhere.
def closeRegion (region : Region) (continuation : BlockId) : Lower Unit := do
  if (← get).isDead then
    truncate region.height
    perform .exit
  else
    if let some phi := region.phi then
      popResult region phi
    truncate region.height
    perform (.jump continuation)

-- Goes on in a block behind a region. It is dead if the region was, or if nothing leads to it.
def resumeAt (region : Region) (b : BlockId) : Lower Unit := do
  Builder.setBlock b
  let f ← Builder.openFunction
  modify fun s => { s with isDead := !region.isLive || (f.predecessors b).isEmpty }

-- Puts the result of a closed region on the stack. If no exit brought a value, the code that
-- follows is dead and only the shape of the stack matters.
def pushResult (phi : Nat) : Lower Unit := do
  let r ← collected phi
  modify fun s => { s with phis := s.phis.set phi { r with incoming := [] } }
  if r.incoming.isEmpty then
    push (← deadOperand r.type)
  else
    note .phiCreated
    push (← define "block_result" r.type (.phi r.incoming))

-- Where a branch goes.
inductive Target where
  | block (id : BlockId)
  -- Out of the function.
  | body
deriving DecidableEq, Repr

-- The region that a branch from block `b` leaves, with the branch taken down.
def Region.leave (region : Region) (b : BlockId) : Region :=
  match region.kind with
  | .if_ breaks => { region with kind := .if_ (breaks ++ [b]) }
  | _ => region

-- Finds the target of a branch by nesting depth and hands over the region's result. A branch to a
-- loop restarts it and brings no result.
def branchTarget (opcode : String) (depth : Nat) : Lower Target := do
  let s ← get
  if depth = s.regions.length then
    return .body
  match s.regions[depth]? with
  | none => throw (.malformed (.branchDepth opcode depth))
  | some region =>
    let b ← Builder.activeBlock
    if let .loop header := region.kind then
      return .block header
    modify fun s => { s with regions := s.regions.set depth (region.leave b) }
    if let some phi := region.phi then
      fillPhi phi (← peekValue opcode)
    return .block region.continuation

-- Goes on in a fresh block that nothing leads to, without the operands of the region.
def enterDeadBlock : Lower Unit := do
  Builder.setBlock (← newBlock)
  truncate (← get).floor
  modify fun s => { s with isDead := true }

-- Returns with the value on top of the stack.
def emitReturn (result : Option Scalar) (opcode : String) : Lower Unit :=
  match result with
  | none => perform .exit
  | some type => do perform (.ret (← popTyped opcode .returnValue type))

-- Returns with the value on top of the stack and leaves it there, for the code that goes on if the
-- return is not taken.
def emitReturnKeep (result : Option Scalar) (opcode : String) : Lower Unit :=
  match result with
  | none => perform .exit
  | some type => do
    let v ← peekValue opcode
    expectType .returnValue type v
    perform (.ret v)

end StackCompiler.Lowering
