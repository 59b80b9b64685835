import StackCompiler.Proofs.Typing.Outline

-- The standard validation of stack code. It knows of no dead code: behind a branch that is always
-- taken, the stack of a region may hold whatever is asked for, up to the region's `else` or `end`.

namespace StackCompiler.Typing

open Bytecode (Instruction)

-- An open region, or the body.
structure Control where
  shape : Shape
  result : Option Scalar
  -- The height of the operand stack at the region's start.
  height : Nat
  isUnreachable : Bool
deriving DecidableEq, Repr

-- What a branch to the region has to bring. One to a loop restarts it and brings nothing.
def Control.label (c : Control) : Option Scalar :=
  if c.shape = .loop then none else c.result

@[ext]
structure Validation where
  stack : List Item
  -- The body is the outermost one.
  controls : List Control
deriving DecidableEq, Repr

-- The state before the first instruction of a body.
def Validation.start (env : Environment) : Validation where
  stack := []
  controls := [⟨.block, env.result, 0, false⟩]

abbrev Validate := StateT Validation Option

namespace Validate

-- Nothing is known of an operand from below the start of an unreachable region.
def pop : Validate (Option Item) := do
  let v ← get
  let c :: _ := v.controls | failure
  if v.stack.length ≤ c.height then
    guard c.isUnreachable
    return none
  let top :: rest := v.stack | failure
  set { v with stack := rest }
  return some top

def popIf (p : Item → Prop) [DecidablePred p] : Validate Unit := do
  if let some found ← pop then
    guard (p found)

def popTyped (expected : Scalar) : Validate Unit :=
  popIf (· = .value expected)

-- Only a branch can take a comparison.
def popCondition : Validate Unit :=
  popIf fun found => found = .comparison ∨ found = .value .i32

-- The last argument is on top.
def popArguments : List Scalar → Validate Unit
  | [] => return
  | type :: types => do
    popArguments types
    popTyped type

def popResult : Option Scalar → Validate Unit
  | none => return
  | some type => popTyped type

def push (type : Scalar) : Validate Unit :=
  modify fun v => { v with stack := .value type :: v.stack }

def pushComparison : Validate Unit :=
  modify fun v => { v with stack := .comparison :: v.stack }

def pushResult : Option Scalar → Validate Unit
  | none => return
  | some type => push type

def enter (shape : Shape) (result : Option Scalar) : Validate Unit :=
  modify fun v => { v with controls := ⟨shape, result, v.stack.length, false⟩ :: v.controls }

-- Leaves the innermost region, with its result and nothing else on the stack.
def exit : Validate Control := do
  let c :: _ := (← get).controls | failure
  popResult c.result
  let v ← get
  guard (v.stack.length = c.height)
  set { v with controls := v.controls.tail }
  return c

-- What follows is out of reach, up to the end of the region.
def cut : Validate Unit := do
  let v ← get
  let c :: outer := v.controls | failure
  set (Validation.mk (v.stack.drop (v.stack.length - c.height)) ({ c with isUnreachable := true } :: outer))

def branch (depth : Nat) : Validate Unit := do
  let some c := (← get).controls[depth]? | failure
  popResult c.label
  cut

def branchIf (depth : Nat) : Validate Unit := do
  popCondition
  let some c := (← get).controls[depth]? | failure
  popResult c.label
  pushResult c.label

def turn : Validate Unit := do
  let c ← exit
  guard (c.shape = .if_)
  enter .else_ c.result

-- An `if` without an `else` leaves nothing.
def close : Validate Unit := do
  let c ← exit
  guard (c.shape = .if_ → c.result = none)
  pushResult c.result

def localSet (env : Environment) (index : Nat) : Validate Scalar := do
  let some type := env.locals[index]? | failure
  popTyped type
  return type

def step (env : Environment) : Instruction → Validate Unit
  | .binary type op => do
    guard (type.allows op)
    popTyped type.scalar
    popTyped type.scalar
    push type.scalar
  | .compare type op => do
    guard (!(type.isFloat && op.isUnsigned))
    popTyped type.scalar
    popTyped type.scalar
    pushComparison
  | .eqz type => do
    popTyped type.scalar
    pushComparison
  | .neg type | .floor type => do
    guard type.isFloat
    popTyped type.scalar
    push type.scalar
  | .const value => push value.type.scalar
  | .localGet index => do
    let some type := env.locals[index]? | failure
    push type
  | .localSet index => discard (localSet env index)
  | .localTee index => do push (← localSet env index)
  | .globalGet index => do
    let some (type, _) := env.globals[index]? | failure
    push type
  | .globalSet index => do
    let some (type, isMutable) := env.globals[index]? | failure
    guard isMutable
    popTyped type
  | .load type _ _ => do
    popTyped .ptr
    push type.scalar
  | .store type _ _ => do
    popTyped type.scalar
    popTyped .ptr
  | .block type => do
    let some result := resultOf type | failure
    enter .block result
  | .loop type => do
    let some result := resultOf type | failure
    enter .loop result
  | .if_ type => do
    let some result := resultOf type | failure
    popCondition
    enter .if_ result
  | .else_ => turn
  | .end_ => close
  | .br depth => branch depth
  | .brIf depth => branchIf depth
  | .call index => do
    let some callee := env.callees[index]? | failure
    popArguments callee.paramTypes
    callee.results.forM fun type => push type.scalar
  | .return_ => do
    popResult env.result
    cut
  | .drop => discard pop
  | .nop => return
  | .brTable .. | .callIndirect _ | .select | .unreachable | .memorySize | .memoryGrow => failure

-- Nothing may follow the end of a body.
def code (env : Environment) : List Instruction → Validate Unit
  | [] => return
  | i :: rest => do
    guard ((← get).controls ≠ [])
    step env i
    code env rest

end Validate

-- All the regions are closed, and the body is.
def Environment.Closes (env : Environment) (instructions : List Instruction) : Prop :=
  (Validate.code env instructions (.start env)).any fun r => r.2.controls.isEmpty
deriving Decidable

-- The body passes validation. Its last `end` may be left out.
def Environment.Validates (env : Environment) (instructions : List Instruction) : Prop :=
  env.Closes instructions ∨ env.Closes (instructions ++ [.end_])
deriving Decidable

end StackCompiler.Typing
