-- The scalar types that values have, from the front of the compiler to the registers.

namespace StackCompiler

inductive Scalar where
  | i8
  | i32
  | i64
  | f32
  | f64
  | ptr
deriving DecidableEq, Repr

namespace Scalar

-- Size in bytes; a pointer fills a machine word.
def size : Scalar → Nat
  | i8 => 1
  | i32 | f32 => 4
  | i64 | f64 | ptr => 8

def isFloat : Scalar → Bool
  | f32 | f64 => true
  | i8 | i32 | i64 | ptr => false

def name : Scalar → String
  | i8 => "i8"
  | i32 => "i32"
  | i64 => "i64"
  | f32 => "f32"
  | f64 => "f64"
  | ptr => "ptr"

end Scalar

end StackCompiler
