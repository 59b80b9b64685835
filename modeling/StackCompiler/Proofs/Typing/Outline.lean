import StackCompiler.Proofs.Lowering.Direct.Module

-- What types alone tell of a body. The outline of a lowering keeps of the operand stack only the
-- types and of the open regions only what decides which code is dead. Checking a body needs no more.

namespace StackCompiler.Typing

open Bytecode (BlockType Instruction Signature ValueType)

-- What is known of an operand. A comparison is not a value; only a branch can take it.
inductive Item where
  | value (type : Scalar)
  | comparison
deriving DecidableEq, Repr

inductive Shape where
  | block
  | loop
  | if_
  | else_
deriving DecidableEq, Repr

structure Bracket where
  shape : Shape
  result : Option Scalar
  -- The height of the operand stack at the region's start.
  height : Nat
  -- Whether the region was opened in live code.
  isLive : Bool
  -- Whether live code goes behind the region, apart from the condition of an `if`.
  isLeft : Bool
deriving DecidableEq, Repr

def Bracket.leave (b : Bracket) : Bracket :=
  { b with isLeft := true }

@[ext]
structure Outline where
  stack : List Item := []
  brackets : List Bracket := []
  isDead : Bool := false
  isEnded : Bool := false
deriving DecidableEq, Repr

-- The types of what a body can refer to.
structure Environment where
  locals : List Scalar
  -- Each with whether it can be set.
  globals : List (Scalar × Bool)
  callees : List Signature
  result : Option Scalar
deriving DecidableEq, Repr

def Outline.floor (k : Outline) : Nat :=
  match k.brackets with
  | [] => 0
  | l :: _ => l.height

-- The registers take six integers and pointers and eight floating point numbers, and there is one
-- register for a result.
def admits (s : Signature) : Bool :=
  s.params.countP (!·.isFloat) ≤ 6 && s.params.countP (·.isFloat) ≤ 8 && s.results.length ≤ 1

def resultOf : BlockType → Option (Option Scalar)
  | .empty => some none
  | .value type => some (some type.scalar)
  | .signature _ => none

abbrev Check := StateT Outline Option

namespace Check

-- Dead code finds an integer below the start of its region.
def pop : Check Item := do
  let k ← get
  if k.stack.length ≤ k.floor then
    if k.isDead then
      return .value .i32
    failure
  match k.stack with
  | [] => failure
  | top :: rest =>
    set { k with stack := rest }
    return top

def popValue : Check Scalar := do
  match ← pop with
  | .value type => return type
  | .comparison => failure

-- Below the start of its region, dead code finds whatever it expects.
def popTyped (expected : Scalar) : Check Unit := do
  let k ← get
  if k.isDead && k.stack.length ≤ k.floor then
    return
  let found ← popValue
  guard (found = expected)

-- The type of the value on top of the stack, which stays there.
def peek : Check Scalar := do
  let k ← get
  match k.stack with
  | .comparison :: _ => failure
  | .value type :: _ => if k.floor < k.stack.length then return type else failure
  | [] => failure

def popCondition : Check Unit := do
  match ← pop with
  | .comparison => return
  | .value type => guard (type = .i32 ∨ type = .i64)

def popArguments : List Scalar → Check Unit
  | [] => return
  | type :: types => do
    popArguments types
    popTyped type

def push (item : Item) : Check Unit :=
  modify fun k => { k with stack := item :: k.stack }

def truncate (height : Nat) : Check Unit :=
  modify fun k => { k with stack := k.stack.drop (k.stack.length - height) }

def enter (shape : Shape) (result : Option Scalar) : Check Unit :=
  modify fun k => { k with brackets := ⟨shape, result, k.stack.length, !k.isDead, false⟩ :: k.brackets }

-- Leaves the region at `depth` with its result on top of the stack. Tells whether it is the body.
def leave (depth : Nat) : Check Bool := do
  let k ← get
  if depth = k.brackets.length then
    return true
  match k.brackets[depth]? with
  | none => failure
  | some bracket =>
    if bracket.shape = .loop then
      return false
    match bracket.result with
    | none => pure ()
    | some type => do
      let found ← peek
      guard (found = type)
    modify fun k => { k with brackets := k.brackets.set depth bracket.leave }
    return false

def die : Check Unit := do
  truncate (← get).floor
  modify fun k => { k with isDead := true }

-- Takes the result of the body off the stack.
def conclude : Option Scalar → Check Unit
  | none => pure ()
  | some type => popTyped type

-- Looks at the result of the body.
def previewResult : Option Scalar → Check Unit
  | none => pure ()
  | some type => do
    let found ← peek
    guard (found = type)

-- Takes off what a region leaves on the stack. In live code, a result must be all there is.
def finish (bracket : Bracket) : Check Unit := do
  let k ← get
  if k.isDead then
    truncate bracket.height
    return
  match bracket.result with
  | none => pure ()
  | some type =>
    guard (k.stack.length - bracket.height = 1)
    guard (k.stack.head? = some (.value type))
  truncate bracket.height

def turn : Check Unit := do
  let k ← get
  match k.brackets with
  | [] => failure
  | bracket :: outer =>
    guard (bracket.shape = .if_)
    finish bracket
    let other := { bracket with shape := .else_, isLeft := bracket.isLeft || !k.isDead }
    modify fun k => { k with brackets := other :: outer, isDead := !bracket.isLive }

-- The code behind a region is live if the region is and some live code leads there.
def close : Check Unit := do
  let k ← get
  match k.brackets with
  | [] => set { k with isEnded := true }
  | bracket :: outer =>
    guard (bracket.shape = .if_ → bracket.result = none)
    finish bracket
    let isLeft := bracket.isLeft || bracket.shape == .if_ || !k.isDead
    modify fun k => { k with
      stack := (bracket.result.map Item.value).toList ++ k.stack
      brackets := outer
      isDead := !(bracket.isLive && isLeft) }

-- A jump in dead code is not even looked at.
def branch (env : Environment) (depth : Nat) : Check Unit := do
  if (← get).isDead then
    return
  if ← leave depth then
    conclude env.result
  die

def branchIf (env : Environment) (depth : Nat) : Check Unit := do
  popCondition
  if (← get).isDead then
    return
  if ← leave depth then
    previewResult env.result

def return_ (env : Environment) : Check Unit := do
  if (← get).isDead then
    return
  conclude env.result
  die

def call (env : Environment) (index : Nat) : Check Unit := do
  let some callee := env.callees[index]? | failure
  guard (admits callee)
  popArguments callee.paramTypes
  match callee.results.head? with
  | none => pure ()
  | some type => push (.value type.scalar)

def localSet (env : Environment) (index : Nat) : Check Scalar := do
  let some type := env.locals[index]? | failure
  popTyped type
  return type

def step (env : Environment) : Instruction → Check Unit
  | .binary type op => do
    guard (type.allows op)
    popTyped type.scalar
    popTyped type.scalar
    push (.value type.scalar)
  | .compare type op => do
    guard (!(type.isFloat && op.isUnsigned))
    popTyped type.scalar
    popTyped type.scalar
    push .comparison
  | .eqz type => do
    popTyped type.scalar
    push .comparison
  | .neg type | .floor type => do
    guard type.isFloat
    popTyped type.scalar
    push (.value type.scalar)
  | .const value => push (.value value.type.scalar)
  | .localGet index => do
    let some type := env.locals[index]? | failure
    push (.value type)
  | .localSet index => discard (localSet env index)
  | .localTee index => do push (.value (← localSet env index))
  | .globalGet index => do
    let some (type, _) := env.globals[index]? | failure
    push (.value type)
  | .globalSet index => do
    let some (type, isMutable) := env.globals[index]? | failure
    guard isMutable
    popTyped type
  | .load type _ _ => do
    popTyped .ptr
    push (.value type.scalar)
  | .store type _ _ => do
    popTyped type.scalar
    popTyped .ptr
  | .block type => do
    let some result := resultOf type | failure
    enter .block result
  | .loop type => do
    let some result := resultOf type | failure
    enter .loop result
  | .if_ type => do
    popCondition
    let some result := resultOf type | failure
    enter .if_ result
  | .else_ => turn
  | .end_ => close
  | .br depth => branch env depth
  | .brIf depth => branchIf env depth
  | .call index => call env index
  | .return_ => return_ env
  | .drop => discard pop
  | .nop => pure ()
  | .brTable .. | .callIndirect _ | .select | .unreachable | .memorySize | .memoryGrow => failure

-- Nothing may follow the end of a body.
def code (env : Environment) : List Instruction → Check Unit
  | [] => pure ()
  | i :: rest => do
    guard ((← get).isEnded = false)
    step env i
    code env rest

-- A whole body. All of its regions are closed, and live code leaves the result at the end.
def body (env : Environment) (instructions : List Instruction) : Check Unit := do
  code env instructions
  let k ← get
  guard (k.brackets = [])
  if !k.isDead then
    conclude env.result

end Check

-- The body passes the check.
def Environment.Accepts (env : Environment) (instructions : List Instruction) : Prop :=
  (Check.body env instructions {}).isSome
deriving Decidable

end StackCompiler.Typing
