import StackCompiler.Scalar

-- The types of stack code: value types, function signatures and the result types of regions.

namespace StackCompiler.Bytecode

-- The type of an operand. A pointer comes only from the host, and only it can address memory.
inductive ValueType where
  | i32
  | i64
  | f32
  | f64
  | ptr
deriving DecidableEq, Repr

namespace ValueType

def scalar : ValueType → Scalar
  | i32 => .i32
  | i64 => .i64
  | f32 => .f32
  | f64 => .f64
  | ptr => .ptr

def name (t : ValueType) : String :=
  t.scalar.name

def isFloat (t : ValueType) : Bool :=
  t.scalar.isFloat

end ValueType

structure Signature where
  params : List ValueType
  results : List ValueType
deriving DecidableEq, Repr

namespace Signature

def paramTypes (s : Signature) : List Scalar :=
  s.params.map ValueType.scalar

def text (s : Signature) : String :=
  tuple s.params ++ " -> " ++ tuple s.results
where
  tuple (types : List ValueType) : String :=
    "(" ++ ", ".intercalate (types.map ValueType.name) ++ ")"

end Signature

-- What a region leaves on the stack.
inductive BlockType where
  | empty
  | value (type : ValueType)
  -- Operands and results by the index of a signature.
  | signature (index : Nat)
deriving DecidableEq, Repr

end StackCompiler.Bytecode
