import StackCompiler.Bytecode.Type
import StackCompiler.Bytes

-- The constants of stack code. Floating point constants are kept as their words.

namespace StackCompiler.Bytecode

inductive Literal where
  | i32 (value : BitVec 32)
  | i64 (value : BitVec 64)
  | f32 (word : BitVec 32)
  | f64 (word : BitVec 64)
deriving DecidableEq, Repr

namespace Literal

def type : Literal → ValueType
  | i32 _ => .i32
  | i64 _ => .i64
  | f32 _ => .f32
  | f64 _ => .f64

-- The memory image, lowest byte first.
def bytes : Literal → List UInt8
  | i32 v | f32 v => Bytes.littleEndian 4 v.toNat
  | i64 v | f64 v => Bytes.littleEndian 8 v.toNat

end Literal

end StackCompiler.Bytecode
