import StackCompiler.Lowering.Region
import StackCompiler.Proofs.Lowering.Direct.Operand

-- Regions that hold their results.

namespace StackCompiler.Lowering.Direct

open Ssa (BlockId Op ValueId)

-- The result that a region has to collect.
def resultOf : Bytecode.BlockType → Except CompileError (Option Result)
  | .empty => .ok none
  | .value type => .ok (some ⟨type.scalar, []⟩)
  | .signature index => .error (.unsupported (.blockSignature index))

def openRegion (kind : RegionKind) (continuation : BlockId) (result : Option Result) : Lower Unit :=
  modify fun s =>
    let region :=
      { kind, continuation, result, height := s.stack.length, isLive := !s.isDead : Region }
    { s with regions := region :: s.regions }

-- Adds the value that the active block brings to a result.
def fill (r : Result) (v : ValueId) : Lower Result := do
  expectType .blockResult r.type v
  let s ← get
  return { r with incoming := r.incoming ++ [(s.block, v)] }

-- Takes the result of a region off the stack. It must be all that the region left there.
def popResult (region : Region) (r : Result) : Lower Result := do
  let s ← get
  let above := s.stack.length - region.height
  if above ≠ 1 then
    throw (.invariant (.regionOperands above))
  match s.stack with
  | .value v :: rest =>
    set { s with stack := rest }
    fill r v
  | _ => throw (.unsupported .comparisonResult)

-- Leaves the active block for `continuation` at the end of a region, with the region's result. A
-- dead block leaves nowhere.
def closeRegion (region : Region) (continuation : BlockId) : Lower (Option Result) := do
  if (← get).isDead then
    truncate region.height
    perform .exit
    return region.result
  let result ←
    match region.result with
    | none => pure none
    | some r => some <$> popResult region r
  truncate region.height
  perform (.jump continuation)
  return result

-- Goes on in a block behind a region. It is dead if the region was, or if nothing leads to it.
def resumeAt (region : Region) (b : BlockId) : Lower Unit := do
  setBlock b
  modify fun s =>
    { s with isDead := !region.isLive || (s.function.predecessors b).isEmpty }

-- Puts the result of a closed region on the stack. If no exit brought a value, the code that
-- follows is dead and only the shape of the stack matters.
def pushResult (r : Result) : Lower Unit := do
  if r.incoming.isEmpty then
    push (← deadOperand r.type)
  else
    note .phiCreated
    push (← define "block_result" r.type (.phi r.incoming))

-- The region that a branch from block `b` leaves, with the branch taken down.
def Region.leave (region : Region) (b : BlockId) : Region :=
  match region.kind with
  | .if_ breaks => { region with kind := .if_ (breaks ++ [b]) }
  | _ => region

-- Finds the target of a branch by nesting depth and hands over the region's result. A branch to a
-- loop restarts it and brings no result.
def branchTarget (opcode : String) (depth : Nat) : Lower Target := do
  let s ← get
  if depth = s.regions.length then
    return .body
  match s.regions[depth]? with
  | none => throw (.malformed (.branchDepth opcode depth))
  | some region =>
    if let .loop header := region.kind then
      return .block header
    let result ←
      match region.result with
      | none => pure none
      | some r => some <$> fill r (← peekValue opcode)
    let left := { region.leave s.block with result := result }
    modify fun s => { s with regions := s.regions.set depth left }
    return .block region.continuation

-- Goes on in a fresh block that nothing leads to, without the operands of the region.
def enterDeadBlock : Lower Unit := do
  let b ← newBlock
  setBlock b
  truncate (← get).floor
  modify fun s => { s with isDead := true }

-- Returns with the value on top of the stack.
def emitReturn (result : Option Scalar) (opcode : String) : Lower Unit :=
  match result with
  | none => perform .exit
  | some type => do perform (.ret (← popTyped opcode .returnValue type))

-- Returns with the value on top of the stack and leaves it there, for the code that goes on if the
-- return is not taken.
def emitReturnKeep (result : Option Scalar) (opcode : String) : Lower Unit :=
  match result with
  | none => perform .exit
  | some type => do
    let v ← peekValue opcode
    expectType .returnValue type v
    perform (.ret v)

end StackCompiler.Lowering.Direct
