-- The binary operators and comparisons that stack code and single-assignment code share.

namespace StackCompiler

-- An operator on two operands of one type. An operator without a suffix is signed on integers.
inductive BinaryOp where
  | add
  | sub
  | mul
  | div
  | divU
  | rem
  | remU
  | and
  | or
  | xor
  | shl
  | shr
  | shrU
deriving DecidableEq, Repr

namespace BinaryOp

def symbol : BinaryOp → String
  | add => "+"
  | sub => "-"
  | mul => "*"
  | div => "/"
  | divU => "/u"
  | rem => "%"
  | remU => "%u"
  | and => "&"
  | or => "|"
  | xor => "^"
  | shl => "<<"
  | shr => ">>"
  | shrU => ">>u"

def allowsFloat : BinaryOp → Bool
  | add | sub | mul | div => true
  | _ => false

-- The name in an opcode. Only integer division tells that it is signed.
def mnemonic (float : Bool) : BinaryOp → String
  | add => "add"
  | sub => "sub"
  | mul => "mul"
  | div => if float then "div" else "div_s"
  | divU => "div_u"
  | rem => "rem_s"
  | remU => "rem_u"
  | and => "and"
  | or => "or"
  | xor => "xor"
  | shl => "shl"
  | shr => "shr_s"
  | shrU => "shr_u"

end BinaryOp

-- An order or equality test. One without a suffix is signed on integers.
inductive Comparison where
  | eq
  | ne
  | lt
  | le
  | gt
  | ge
  | ltU
  | leU
  | gtU
  | geU
deriving DecidableEq, Repr

namespace Comparison

def symbol : Comparison → String
  | eq => "=="
  | ne => "!="
  | lt => "<"
  | le => "<="
  | gt => ">"
  | ge => ">="
  | ltU => "<u"
  | leU => "<=u"
  | gtU => ">u"
  | geU => ">=u"

def isUnsigned : Comparison → Bool
  | ltU | leU | gtU | geU => true
  | _ => false

-- The name in an opcode. Only an integer order tells that it is signed.
def mnemonic (float : Bool) : Comparison → String
  | eq => "eq"
  | ne => "ne"
  | lt => if float then "lt" else "lt_s"
  | le => if float then "le" else "le_s"
  | gt => if float then "gt" else "gt_s"
  | ge => if float then "ge" else "ge_s"
  | ltU => "lt_u"
  | leU => "le_u"
  | gtU => "gt_u"
  | geU => "ge_u"

end Comparison

end StackCompiler
