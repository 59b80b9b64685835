import StackCompiler.Ieee.Text
import StackCompiler.Operator
import StackCompiler.Scalar

-- The instructions of single-assignment code. Every instruction is a value, also one that yields
-- nothing, and values and blocks are numbered per function. The numbers stand for words of 32 bits, and
-- a function is taken to have fewer than 2^32 of either.

namespace StackCompiler.Ssa

structure ValueId where
  index : Nat
deriving DecidableEq, Repr

def ValueId.text (v : ValueId) : String :=
  "%" ++ toString v.index

structure BlockId where
  index : Nat
deriving DecidableEq, Repr

structure GlobalId where
  index : Nat
deriving DecidableEq, Repr

-- A constant; a floating point one is kept as its double precision word.
inductive Constant where
  | int (value : BitVec 64)
  | float (word : BitVec 64)
deriving DecidableEq, Repr

namespace Constant

def text : Constant → String
  | int v => toString v.toInt
  | float w => Ieee.text w

def zero (type : Scalar) : Constant :=
  if type.isFloat then float 0 else int 0

end Constant

-- A call by name, before its operands are given registers.
structure Call where
  callee : String
  args : List ValueId
  result : Option Scalar
deriving DecidableEq, Repr

inductive Op where
  | param (index : Nat)
  | const (value : Constant)
  -- A stack slot; the value is its address.
  | alloc (size align : Nat)
  | globalAddr (id : GlobalId)
  | binary (op : BinaryOp) (lhs rhs : ValueId)
  | neg (operand : ValueId)
  | cast (operand : ValueId)
  | load (address : ValueId)
  | store (value address : ValueId)
  | phi (incoming : List (BlockId × ValueId))
  | call (call : Call)
  | jump (target : BlockId)
  | branch (lhs : ValueId) (cond : Comparison) (rhs : ValueId) (yes no : BlockId)
  | ret (value : ValueId)
  | exit
deriving DecidableEq, Repr

namespace Op

def isTerminator : Op → Bool
  | jump _ | branch .. | ret _ | exit => true
  | _ => false

def isPhi : Op → Bool
  | phi _ => true
  | _ => false

-- The blocks that a terminator can go to, in branch order.
def successors : Op → List BlockId
  | jump target => [target]
  | branch _ _ _ yes no => [yes, no]
  | _ => []

-- The values that an instruction reads, in the order in which it lists them.
def operands : Op → List ValueId
  | param _ | const _ | alloc _ _ | globalAddr _ | jump _ | exit => []
  | binary _ lhs rhs => [lhs, rhs]
  | neg operand | cast operand => [operand]
  | load address => [address]
  | store value address => [value, address]
  | phi incoming => incoming.map Prod.snd
  | call c => c.args
  | branch lhs _ rhs _ _ => [lhs, rhs]
  | ret value => [value]

def mnemonic : Op → String
  | param _ => "param"
  | const _ => "const"
  | alloc _ _ => "alloc"
  | globalAddr _ => "global"
  | binary .. => "binop"
  | neg _ => "unop"
  | cast _ => "cast"
  | load _ => "load"
  | store _ _ => "store"
  | phi _ => "phi"
  | call _ => "call"
  | jump _ => "jmp"
  | branch .. => "cjmp"
  | ret _ => "return"
  | exit => "exit"

-- Moves the first edge to `old` over to `new`, if the instruction has such an edge.
def retarget? (old new : BlockId) : Op → Option Op
  | jump target => if target = old then some (jump new) else none
  | branch lhs cond rhs yes no =>
    if yes = old then some (branch lhs cond rhs new no)
    else if no = old then some (branch lhs cond rhs yes new)
    else none
  | _ => none

-- Drops what a phi takes from blocks that fail `keep`.
def filterIncoming (keep : BlockId → Bool) : Op → Op
  | phi incoming => phi (incoming.filter fun i => keep i.1)
  | op => op

theorem successors_eq_nil_of_not_isTerminator {op : Op} (h : op.isTerminator = false) :
    op.successors = [] := by
  cases op <;> simp_all [isTerminator, successors]

@[simp]
theorem successors_filterIncoming (keep : BlockId → Bool) (op : Op) :
    (op.filterIncoming keep).successors = op.successors := by
  cases op <;> rfl

@[simp]
theorem isTerminator_filterIncoming (keep : BlockId → Bool) (op : Op) :
    (op.filterIncoming keep).isTerminator = op.isTerminator := by
  cases op <;> rfl

end Op

end StackCompiler.Ssa
