import StackCompiler.Lowering.State

-- Operands off the stack. Live code cannot pop below the start of its region; dead code can, and
-- gets a constant that nothing will ever read.

namespace StackCompiler.Lowering

open Ssa (Constant Op ValueId)

-- A stand-in for an operand that dead code takes from below the start of its region.
def deadOperand (type : Scalar) : Lower ValueId :=
  define "undef" type (.const (.zero type))

def popOperand (opcode : String) : Lower Operand := do
  let s ← get
  if s.stack.length ≤ s.floor then
    if s.isDead then
      return .value (← deadOperand .i32)
    throw (.malformed (.underflow opcode))
  match s.stack with
  | [] => throw (.malformed (.underflow opcode))
  | top :: rest =>
    set { s with stack := rest }
    return top

def popValue (opcode : String) : Lower ValueId := do
  match ← popOperand opcode with
  | .value v => return v
  | .comparison .. => throw (.unsupported (.comparisonOperand opcode))

-- Pops a value of the expected type.
def popTyped (opcode : String) (context : TypeContext) (expected : Scalar) : Lower ValueId := do
  let s ← get
  if s.isDead && s.stack.length ≤ s.floor then
    deadOperand expected
  else
    let v ← popValue opcode
    expectType context expected v
    return v

-- The value on top of the stack, which stays there.
def peekValue (opcode : String) : Lower ValueId := do
  let s ← get
  match s.stack with
  | .comparison .. :: _ => throw (.unsupported (.comparisonOperand opcode))
  | .value v :: _ =>
    if s.floor < s.stack.length then return v else throw (.malformed (.underflow opcode))
  | [] => throw (.malformed (.underflow opcode))

-- Pops the condition of a branch: a comparison, or an integer that is compared with zero.
def popCondition (opcode : String) : Lower (ValueId × Comparison × ValueId) := do
  match ← popOperand opcode with
  | .comparison lhs cond rhs => return (lhs, cond, rhs)
  | .value v =>
    let type ← typeOf v
    if type ≠ .i32 ∧ type ≠ .i64 then
      throw (.typeMismatch .branchCondition .i32 type)
    let zero ← define "zero" type (.const (.zero type))
    return (v, .ne, zero)

-- Pops the arguments of a call. The last argument is on top.
def popArguments (opcode : String) : List Scalar → Lower (List ValueId)
  | [] => return []
  | type :: types => do
    let args ← popArguments opcode types
    let arg ← popTyped opcode .callArgument type
    return arg :: args

end StackCompiler.Lowering
