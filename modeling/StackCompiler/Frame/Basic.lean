import StackCompiler.Convention.Assignment
import StackCompiler.Register.File

-- Frames: what the code of one function must know about registers, stack space and constants.

namespace StackCompiler

-- A constant for the literal pool. Only bytes can be written there.
inductive PoolValue where
  | bytes (value : List UInt8)
  | int (value : BitVec 64)
  | float (word : BitVec 64)
deriving DecidableEq, Repr

def PoolValue.kind : PoolValue → String
  | bytes _ => "bytes"
  | int _ => "int"
  | float _ => "float"

@[ext]
structure Frame where
  name : String
  -- The argument registers, in parameter order.
  arguments : List Register
  liveIn : RegisterSet
  result : Option Register
  liveOut : RegisterSet
  used : RegisterSet := .empty
  stackSize : Nat := 0
  -- The literal pool, each constant under its label.
  pool : List (String × PoolValue) := []
  -- The registers that are live across a call, the latest record first.
  liveOver : List (Ssa.ValueId × List Register) := []
deriving DecidableEq, Repr

namespace Frame

-- The registers that are live at the entry of a function with these argument registers.
def entrySet (arguments : List Register) : RegisterSet :=
  (RegisterSet.ofList arguments).insert .rbp

-- The registers that are live at the exit of a function.
def exitSet (result : Option Register) : RegisterSet :=
  RegisterSet.ofList (result.toList ++ [.rbp])

def ofSignature (name : String) (params : List Scalar) (result : Option Scalar) :
    Except CompileError Frame :=
  match Convention.assign params with
  | .error cause => .error (.overflow cause)
  | .ok arguments =>
    let result := result.map Convention.resultRegister
    .ok { name, arguments, result, liveIn := entrySet arguments, liveOut := exitSet result }

def markUsed (f : Frame) (r : Register) : Frame :=
  { f with used := f.used.insert r }

def isUsed (f : Frame) (r : Register) : Bool :=
  f.used.contains r

-- Adds a constant to the literal pool and gives its label.
def addConstant (f : Frame) (value : PoolValue) : String × Frame :=
  let label := f.name ++ "_literal_" ++ toString f.pool.length
  (label, { f with pool := f.pool ++ [(label, value)] })

def setLiveOver (f : Frame) (site : Ssa.ValueId) (regs : List Register) : Frame :=
  { f with liveOver := (site, regs) :: f.liveOver }

-- The registers that are live across the call at `site`, in the order in which to save them.
def liveOverCall (f : Frame) (site : Ssa.ValueId) : List Register :=
  (f.liveOver.lookup site).getD []

-- Takes down which registers are live across a call whose result goes to `dest`.
def recordCall (f : Frame) (regs : RegisterFile) (site : Ssa.ValueId) (dest : Option Register) :
    Frame :=
  f.setLiveOver site (regs.liveAcross dest)

-- Marks every register that was ever handed out as used.
def commit (f : Frame) (regs : RegisterFile) : Frame :=
  regs.used.toList.foldl markUsed f

end Frame

end StackCompiler
