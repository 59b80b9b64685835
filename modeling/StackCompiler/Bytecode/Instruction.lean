import StackCompiler.Bytecode.Literal
import StackCompiler.Operator

-- The instructions of stack code. Control is structured: a region is opened by `block`, `loop` or
-- `if` and closed by `end`, and a branch names a region by its depth, counted from the innermost
-- one.

namespace StackCompiler.Bytecode

inductive Instruction where
  | binary (type : ValueType) (op : BinaryOp)
  | compare (type : ValueType) (op : Comparison)
  | eqz (type : ValueType)
  | neg (type : ValueType)
  | floor (type : ValueType)
  | const (value : Literal)
  | localGet (index : Nat)
  | localSet (index : Nat)
  | localTee (index : Nat)
  | globalGet (index : Nat)
  | globalSet (index : Nat)
  | load (type : ValueType) (offset align : Nat)
  | store (type : ValueType) (offset align : Nat)
  | block (type : BlockType)
  | loop (type : BlockType)
  | if_ (type : BlockType)
  | else_
  | end_
  | br (depth : Nat)
  | brIf (depth : Nat)
  | call (index : Nat)
  | return_
  | drop
  | nop
  | brTable (targets : List Nat) (default : Nat)
  | callIndirect (type : Nat)
  | select
  | unreachable
  | memorySize
  | memoryGrow
deriving DecidableEq, Repr

namespace Instruction

-- The mnemonic of the text format.
def opcode : Instruction → String
  | binary t op => t.name ++ "." ++ op.mnemonic t.isFloat
  | compare t op => t.name ++ "." ++ op.mnemonic t.isFloat
  | eqz t => t.name ++ ".eqz"
  | neg t => t.name ++ ".neg"
  | floor t => t.name ++ ".floor"
  | const v => v.type.name ++ ".const"
  | localGet _ => "local.get"
  | localSet _ => "local.set"
  | localTee _ => "local.tee"
  | globalGet _ => "global.get"
  | globalSet _ => "global.set"
  | load t _ _ => t.name ++ ".load"
  | store t _ _ => t.name ++ ".store"
  | block _ => "block"
  | loop _ => "loop"
  | if_ _ => "if"
  | else_ => "else"
  | end_ => "end"
  | br _ => "br"
  | brIf _ => "br_if"
  | call _ => "call"
  | return_ => "return"
  | drop => "drop"
  | nop => "nop"
  | brTable _ _ => "br_table"
  | callIndirect _ => "call_indirect"
  | select => "select"
  | unreachable => "unreachable"
  | memorySize => "memory.size"
  | memoryGrow => "memory.grow"

end Instruction

end StackCompiler.Bytecode
