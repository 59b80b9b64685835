import StackCompiler.Proofs.Lowering.Direct.Step
import StackCompiler.Proofs.Semantics.Run

-- The meaning of stack code: a machine with a stack of operands and a stack of labels, one for each
-- region that is entered.

namespace StackCompiler.Stack

open Bytecode (BlockType Instruction Module Signature)

structure Typed (I : Interpretation) where
  type : Scalar
  value : I.Value

-- A comparison stays undecided until a branch asks for it.
inductive Operand (I : Interpretation) where
  | value (x : Typed I)
  | comparison (type : Scalar) (lhs : I.Value) (cond : Comparison) (rhs : I.Value)

structure Label where
  -- The code of a loop, to which a branch goes back. Other regions are left by a branch.
  restart : Option (List Instruction)
  -- The type of the result, if the region has one.
  type : Option Scalar
  -- The height of the operand stack at the region's start.
  height : Nat

structure Config (I : Interpretation) where
  code : List Instruction
  stack : List (Operand I)
  labels : List Label
  locals : List (Typed I)

variable {I : Interpretation}

-- The code from the `else` or `end` on that belongs to the region `depth` levels out.
def seek : (depth : Nat) → List Instruction → List Instruction
  | _, [] => []
  | 0, .end_ :: code => .end_ :: code
  | 0, .else_ :: code => .else_ :: code
  | depth + 1, .end_ :: code => seek depth code
  | depth, .block _ :: code | depth, .loop _ :: code | depth, .if_ _ :: code => seek (depth + 1) code
  | depth, _ :: code => seek depth code

-- The code behind the region `depth` levels out.
def behind (depth : Nat) (code : List Instruction) : Option (List Instruction) :=
  match seek depth code with
  | .end_ :: code => some code
  | .else_ :: code =>
    match seek 0 code with
    | .end_ :: code => some code
    | _ => none
  | _ => none

-- What stands on the lowest places of a stack.
def keep {α : Type} (height : Nat) (stack : List α) : List α :=
  stack.drop (stack.length - height)

-- The stack behind a region: what was there before it, and its result.
def Label.carry (l : Label) (stack : List (Operand I)) : Option (List (Operand I)) :=
  match l.type, stack with
  | none, _ => some (keep l.height stack)
  | some _, .value x :: _ => some (.value x :: keep l.height stack)
  | some _, _ => none

def popValue : List (Operand I) → Option (Typed I × List (Operand I))
  | .value x :: stack => some (x, stack)
  | _ => none

-- Pops the arguments of a call. The last argument is on top.
def popValues : Nat → List (Operand I) → Option (List I.Value × List (Operand I))
  | 0, stack => some ([], stack)
  | n + 1, stack => do
    let (args, stack) ← popValues n stack
    let (arg, stack) ← popValue stack
    return (arg.value :: args, stack)

-- Whether a branch is taken. An integer stands for its comparison with zero.
def Operand.holds : Operand I → I.Effect Bool
  | value x => do
    let zero ← I.constant x.type (.zero x.type)
    I.compare x.type .ne x.value zero
  | comparison type lhs cond rhs => I.compare type cond lhs rhs

-- The address `base + offset`.
def address (base : I.Value) (offset : Nat) : I.Effect I.Value := do
  let offset ← I.constant .ptr (.int (BitVec.ofNat 64 offset))
  I.binary .ptr .add base offset

def resultType : BlockType → Option Scalar
  | .value type => some type.scalar
  | .empty | .signature _ => none

-- What a step of the machine gives.
abbrev Result (I : Interpretation) :=
  Next (Config I) (Option I.Value)

namespace Config

-- Goes on with another stack.
def goOn (c : Config I) (stack : List (Operand I)) : I.Effect (Result I) :=
  return .run { c with stack := stack }

-- Goes on with a value on top of the stack.
def push (c : Config I) (stack : List (Operand I)) (type : Scalar) (x : I.Effect I.Value) :
    I.Effect (Result I) := do
  c.goOn (.value ⟨type, ← x⟩ :: stack)

-- Returns from a function of signature `s`, with the top of the stack if there is a result.
def finish (s : Signature) (c : Config I) : Option (Result I) :=
  match s.results with
  | [] => some (.halt none)
  | _ :: _ => do
    let (x, _) ← popValue c.stack
    return .halt (some x.value)

-- Branches to the region `depth` levels out, or out of the function.
def branch (s : Signature) (c : Config I) (depth : Nat) : Option (Result I) :=
  if depth = c.labels.length then
    c.finish s
  else do
    let l ← c.labels[depth]?
    match l.restart with
    | some code =>
      return .run { c with
        code := code
        stack := keep l.height c.stack
        labels := c.labels.drop depth }
    | none =>
      let code ← behind depth c.code
      let stack ← l.carry c.stack
      return .run { c with
        code := code
        stack := stack
        labels := c.labels.drop (depth + 1) }

-- Enters a region.
def enter (c : Config I) (type : BlockType) (restart : Option (List Instruction)) : Config I :=
  { c with labels := ⟨restart, resultType type, c.stack.length⟩ :: c.labels }

-- Goes on in the other branch of an `if`, or behind it if there is no other branch.
def otherwise (c : Config I) (type : BlockType) : Option (Config I) :=
  match seek 0 c.code with
  | .else_ :: code => some ({ c with code := code }.enter type none)
  | .end_ :: code => some { c with code := code }
  | _ => none

-- Executes one instruction; the code of the configuration is what follows it.
def execute (m : Module) (s : Signature) (c : Config I) :
    Instruction → Option (I.Effect (Result I))
  | .binary type op => do
    let (rhs, stack) ← popValue c.stack
    let (lhs, stack) ← popValue stack
    return c.push stack type.scalar (I.binary type.scalar op lhs.value rhs.value)
  | .compare type op => do
    let (rhs, stack) ← popValue c.stack
    let (lhs, stack) ← popValue stack
    return c.goOn (.comparison type.scalar lhs.value op rhs.value :: stack)
  | .eqz type => do
    let (x, stack) ← popValue c.stack
    return do
      let zero ← I.constant type.scalar (.zero type.scalar)
      c.goOn (.comparison type.scalar x.value .eq zero :: stack)
  | .neg type => do
    let (x, stack) ← popValue c.stack
    return c.push stack type.scalar (I.neg type.scalar x.value)
  | .floor type => do
    let (x, stack) ← popValue c.stack
    return do
      let int ← I.cast type.scalar .i64 x.value
      c.push stack type.scalar (I.cast .i64 type.scalar int)
  | .const value =>
    some (c.push c.stack value.type.scalar (I.constant value.type.scalar value.constant))
  | .localGet index => do
    let x ← c.locals[index]?
    return c.goOn (.value x :: c.stack)
  | .localSet index => do
    let (x, stack) ← popValue c.stack
    let old ← c.locals[index]?
    return { c with locals := c.locals.set index ⟨old.type, x.value⟩ }.goOn stack
  | .localTee index => do
    let (x, _) ← popValue c.stack
    let old ← c.locals[index]?
    return { c with locals := c.locals.set index ⟨old.type, x.value⟩ }.goOn c.stack
  | .globalGet index => do
    let g ← m.globals[index]?
    return c.push c.stack g.type.scalar (Interpretation.getGlobal ⟨index⟩)
  | .globalSet index => do
    let (x, stack) ← popValue c.stack
    return do
      Interpretation.setGlobal ⟨index⟩ x.value
      c.goOn stack
  | .load type offset _ => do
    let (base, stack) ← popValue c.stack
    return do
      let address ← address base.value offset
      c.push stack type.scalar (I.load type.scalar address)
  | .store type offset _ => do
    let (x, stack) ← popValue c.stack
    let (base, stack) ← popValue stack
    return do
      let address ← address base.value offset
      I.store type.scalar x.value address
      c.goOn stack
  | .block type => some (return .run (c.enter type none))
  | .loop type => some (return .run (c.enter type (some c.code)))
  | .if_ type =>
    match c.stack with
    | [] => none
    | o :: stack => do
      let c : Config I := { c with stack := stack }
      let other ← c.otherwise type
      return do
        if ← o.holds then
          return .run (c.enter type none)
        return .run other
  | .else_ =>
    match c.labels with
    | [] => none
    | l :: labels => do
      let code ← behind 0 c.code
      let stack ← l.carry c.stack
      return { c with code := code, labels := labels }.goOn stack
  | .end_ =>
    match c.labels with
    | [] => (c.finish s).map pure
    | l :: labels => do
      let stack ← l.carry c.stack
      return { c with labels := labels }.goOn stack
  | .br depth => (c.branch s depth).map pure
  | .brIf depth =>
    match c.stack with
    | [] => none
    | o :: stack => do
      let c : Config I := { c with stack := stack }
      let taken ← c.branch s depth
      return do
        if ← o.holds then
          return taken
        return .run c
  | .call index => do
    let callee ← m.signature? index
    let (args, stack) ← popValues callee.params.length c.stack
    return do
      let x ← I.call (m.functionName index) args
      match callee.results with
      | [] => c.goOn stack
      | type :: _ => c.goOn (.value ⟨type.scalar, x⟩ :: stack)
  | .return_ => (c.finish s).map pure
  | .drop =>
    match c.stack with
    | [] => none
    | _ :: stack => some (c.goOn stack)
  | .nop => some (c.goOn c.stack)
  | .brTable .. | .callIndirect _ | .select | .unreachable | .memorySize | .memoryGrow => none

-- A step of the machine in a function of signature `s`. The end of the code is a return.
def step (m : Module) (s : Signature) (c : Config I) : Option (I.Effect (Result I)) :=
  match c.code with
  | [] => (c.finish s).map pure
  | i :: code => { c with code := code }.execute m s i

end Config

-- The beginning of a call: parameters are locals, and all other locals are zero.
def start (s : Signature) (body : Bytecode.Body) (args : List I.Value) : I.Effect (Result I) := do
  let zeros ← body.locals.mapM fun type => do
    return ⟨type.scalar, ← I.constant type.scalar (.zero type.scalar)⟩
  return .run {
    code := body.code
    stack := []
    labels := []
    locals := s.paramTypes.zipWith Typed.mk args ++ zeros }

end StackCompiler.Stack
