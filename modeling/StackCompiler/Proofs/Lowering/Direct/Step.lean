import StackCompiler.Lowering.Step
import StackCompiler.Proofs.Lowering.Direct.Region

-- The lowering of one instruction.

namespace StackCompiler.Lowering.Direct

open Bytecode (BlockType Instruction ValueType)
open Ssa (BlockId Constant Function Op ValueId)

def Context.local (cx : Context) (index : Nat) : Except CompileError Slot :=
  match cx.locals[index]? with
  | some slot => .ok slot
  | none => .error (.malformed (.localIndex index))

def Context.global (cx : Context) (index : Nat) : Except CompileError GlobalSlot :=
  match cx.globals[index]? with
  | some slot => .ok slot
  | none => .error (.malformed (.globalIndex index))

def Context.callee (cx : Context) (index : Nat) : Except CompileError Callee :=
  match cx.callees[index]? with
  | some callee => .ok callee
  | none => .error (.malformed (.functionIndex index))

def binary (opcode : String) (type : ValueType) (op : BinaryOp) : Lower Unit := do
  if !type.allows op then
    throw (.unsupported (.opcode opcode))
  let rhs ← popTyped opcode .binaryOperand type.scalar
  let lhs ← popTyped opcode .binaryOperand type.scalar
  push (← define (op.mnemonic type.isFloat) type.scalar (.binary op lhs rhs))

def compare (opcode : String) (type : ValueType) (op : Comparison) : Lower Unit := do
  if type.isFloat && op.isUnsigned then
    throw (.unsupported (.opcode opcode))
  let rhs ← popTyped opcode .comparisonOperand type.scalar
  let lhs ← popTyped opcode .comparisonOperand type.scalar
  pushComparison lhs op rhs

def eqz (opcode : String) (type : ValueType) : Lower Unit := do
  let operand ← popTyped opcode .comparisonOperand type.scalar
  let zero ← define "zero" type.scalar (.const (.zero type.scalar))
  pushComparison operand .eq zero

def neg (opcode : String) (type : ValueType) : Lower Unit := do
  if !type.isFloat then
    throw (.unsupported (.opcode opcode))
  let operand ← popTyped opcode .negOperand type.scalar
  push (← define "neg" type.scalar (.neg operand))

-- The floor goes through an integer and back.
def floor (opcode : String) (type : ValueType) : Lower Unit := do
  if !type.isFloat then
    throw (.unsupported (.opcode opcode))
  let operand ← popTyped opcode .floorOperand type.scalar
  let int ← define "floor_cast_1" .i64 (.cast operand)
  push (← define "floor_cast_2" type.scalar (.cast int))

def localGet (cx : Context) (index : Nat) : Lower Unit := do
  let slot ← ofExcept (cx.local index)
  push (← define "getlocal" slot.type (.load slot.address))

-- Stores the top of the stack in a local, and gives the value stored.
def localSet (cx : Context) (opcode : String) (index : Nat) : Lower ValueId := do
  let slot ← ofExcept (cx.local index)
  let v ← popTyped opcode .localSet slot.type
  perform (.store v slot.address)
  return v

def globalGet (cx : Context) (index : Nat) : Lower Unit := do
  let slot ← ofExcept (cx.global index)
  let address ← define "global_addr" .ptr (.globalAddr slot.id)
  push (← define "get_global" slot.type (.load address))

def globalSet (cx : Context) (opcode : String) (index : Nat) : Lower Unit := do
  let slot ← ofExcept (cx.global index)
  if !slot.isMutable then
    throw (.malformed (.immutableGlobal index))
  let v ← popTyped opcode .globalSet slot.type
  let address ← define "global_addr" .ptr (.globalAddr slot.id)
  perform (.store v address)

-- The address `base + offset`.
def address (base : ValueId) (offset : Nat) : Lower ValueId := do
  let offset ← define "offset" .ptr (.const (.int (BitVec.ofNat 64 offset)))
  define "address" .ptr (.binary .add base offset)

def load (opcode : String) (type : ValueType) (offset : Nat) : Lower Unit := do
  let base ← popTyped opcode .loadAddress .ptr
  push (← define "load" type.scalar (.load (← address base offset)))

def store (opcode : String) (type : ValueType) (offset : Nat) : Lower Unit := do
  let v ← popTyped opcode .storeValue type.scalar
  let base ← popTyped opcode .storeAddress .ptr
  perform (.store v (← address base offset))

def startBlock (type : BlockType) : Lower Unit := do
  let result ← ofExcept (resultOf type)
  let inner ← newBlock
  let continuation ← newBlock
  perform (.jump inner)
  setBlock inner
  openRegion .block continuation result

def startLoop (type : BlockType) : Lower Unit := do
  let result ← ofExcept (resultOf type)
  let header ← newBlock
  let continuation ← newBlock
  perform (.jump header)
  setBlock header
  openRegion (.loop header) continuation result

-- The continuation of an `if` is first the target of its other branch. An `else` takes it over.
def startIf (opcode : String) (type : BlockType) : Lower Unit := do
  let (lhs, cond, rhs) ← popCondition opcode
  let inner ← newBlock
  let continuation ← newBlock
  perform (.branch lhs cond rhs inner continuation)
  setBlock inner
  openRegion (.if_ []) continuation (← ofExcept (resultOf type))

-- Moves edges over to another block.
def retargetAll (sources : List BlockId) (old new : BlockId) : Lower Unit :=
  sources.forM fun b => edit (Function.retarget b old new)

-- Turns to the other branch of an `if`. The exits taken so far move to a new continuation.
def startElse : Lower Unit := do
  let s ← get
  match s.regions with
  | [] => throw (.malformed .elseOutside)
  | region :: outer =>
    match region.kind with
    | .if_ breaks =>
      set { s with regions := outer }
      let continuation ← newBlock
      let result ← closeRegion region continuation
      retargetAll breaks region.continuation continuation
      resumeAt region region.continuation
      let other := { region with kind := .else_, continuation := continuation, result := result }
      modify fun s => { s with regions := other :: s.regions }
    | _ => throw (.malformed .elseWithoutIf)

-- Closes the innermost region, or the body if no region is open.
def close : Lower Unit := do
  let s ← get
  match s.regions with
  | [] => set { s with isEnded := true }
  | region :: outer =>
    match region.kind, region.result with
    | .if_ _, some _ => throw (.unsupported .ifWithoutElse)
    | _, _ =>
      set { s with regions := outer }
      let result ← closeRegion region region.continuation
      resumeAt region region.continuation
      match result with
      | none => pure ()
      | some r => pushResult r

-- A branch in dead code is not even looked at.
def branch (cx : Context) (opcode : String) (depth : Nat) : Lower Unit := do
  if (← get).isDead then
    return
  match ← branchTarget opcode depth with
  | .body => emitReturn cx.result opcode
  | .block target => perform (.jump target)
  enterDeadBlock

-- A conditional branch out of the function returns from a block of its own.
def branchIf (cx : Context) (opcode : String) (depth : Nat) : Lower Unit := do
  let (lhs, cond, rhs) ← popCondition opcode
  if (← get).isDead then
    return
  match ← branchTarget opcode depth with
  | .block target =>
    let next ← newBlock
    perform (.branch lhs cond rhs target next)
    setBlock next
  | .body =>
    let taken ← newBlock
    let next ← newBlock
    perform (.branch lhs cond rhs taken next)
    setBlock taken
    emitReturnKeep cx.result opcode
    setBlock next

def call (cx : Context) (opcode : String) (index : Nat) : Lower Unit := do
  let callee ← ofExcept (cx.callee index)
  Convention.accept callee.name callee.signature.paramTypes
  let result ← ofExcept callee.signature.result
  let args ← popArguments opcode callee.signature.paramTypes
  let v ← append "call" result (.call ⟨callee.name, args, result⟩)
  note (.callLowered callee.name)
  if result.isSome then
    push v

def return_ (cx : Context) (opcode : String) : Lower Unit := do
  if (← get).isDead then
    return
  emitReturn cx.result opcode
  enterDeadBlock

def step (cx : Context) (i : Instruction) : Lower Unit :=
  match i with
  | .binary type op => binary i.opcode type op
  | .compare type op => compare i.opcode type op
  | .eqz type => eqz i.opcode type
  | .neg type => neg i.opcode type
  | .floor type => floor i.opcode type
  | .const value => do push (← define "const" value.type.scalar (.const value.constant))
  | .localGet index => localGet cx index
  | .localSet index => discard (localSet cx i.opcode index)
  | .localTee index => do push (← localSet cx i.opcode index)
  | .globalGet index => globalGet cx index
  | .globalSet index => globalSet cx i.opcode index
  | .load type offset _ => load i.opcode type offset
  | .store type offset _ => store i.opcode type offset
  | .block type => startBlock type
  | .loop type => startLoop type
  | .if_ type => startIf i.opcode type
  | .else_ => startElse
  | .end_ => close
  | .br depth => branch cx i.opcode depth
  | .brIf depth => branchIf cx i.opcode depth
  | .call index => call cx i.opcode index
  | .return_ => return_ cx i.opcode
  | .drop => discard (popOperand i.opcode)
  | .nop => pure ()
  | .brTable .. | .callIndirect _ | .select | .unreachable | .memorySize | .memoryGrow =>
    throw (.unsupported (.opcode i.opcode))

end StackCompiler.Lowering.Direct
