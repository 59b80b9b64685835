import StackCompiler.Frame.Basic
import StackCompiler.Machine.Instruction

-- The code that a frame stands for: the way in and out of a function, its calls with the registers
-- saved around them, and the moves that bring arguments into place.

namespace StackCompiler

open Machine (Instruction)

namespace Frame

-- The registers of the frame that the function must hand back unchanged and that it uses.
def savedRegisters (f : Frame) : List Register :=
  Register.calleeSaved.filter f.isUsed

def prologue (f : Frame) : List Instruction :=
  [.label f.name, .push .rbp]
    ++ f.savedRegisters.map .push
    ++ (if 0 < f.stackSize then [.subImm .rsp f.stackSize] else [])
    ++ [.move .rbp .rsp]

-- The literal pool as labelled bytes.
def poolCode : List (String × PoolValue) → Except CompileError (List Instruction)
  | [] => .ok []
  | (label, .bytes value) :: rest => do
    let code ← poolCode rest
    return .label label :: value.map .byte ++ code
  | (label, value) :: _ => .error (.unsupported (.poolValue value.kind label))

-- Undoes the prologue in reverse and returns. The literal pool stands behind, where control never
-- comes.
def epilogue (f : Frame) : Except CompileError (List Instruction) := do
  let pool ← poolCode f.pool
  return (if 0 < f.stackSize then [.addImm .rsp f.stackSize] else [])
    ++ f.savedRegisters.reverse.map .pop
    ++ [.pop .rbp, .ret]
    ++ pool

def code (f : Frame) (body : List Instruction) : Except CompileError (List Instruction) := do
  return f.prologue ++ body ++ (← f.epilogue)

-- The registers to save around a call whose result goes to `dest`.
def savedOverCall (f : Frame) (site : Ssa.ValueId) (dest : Option Register) : List Register :=
  (f.liveOverCall site).filter (some · != dest)

-- A call between the saving of live registers and their restoring in reverse. Only general purpose
-- registers can be saved.
def callCode (f : Frame) (site : Ssa.ValueId) (callee : String) (dest : Option Register) :
    Except CompileError (List Instruction) :=
  let saved := f.savedOverCall site dest
  match saved.find? (·.bank != Register.generalBank) with
  | some r => .error (.unsupported (.callerSave r callee))
  | none => .ok (saved.map .push ++ [.call callee] ++ saved.reverse.map .pop)

end Frame

namespace Convention

-- Moves of `args` to the argument registers `targets`, one after the other. An argument that is in
-- place needs none.
def moves : (targets args : List Register) → Except CompileError (List Instruction)
  | target :: targets, arg :: args =>
    if target.bank ≠ arg.bank then
      .error (.invariant (.argumentBank arg.bank target))
    else do
      let rest ← moves targets args
      return if target = arg then rest else .move target arg :: rest
  | _, _ => .ok []

-- The moves for a call with these argument types, and the registers that are live with them. The
-- set grows as soon as the signature fits, even if a move then fails.
def fillArguments (types : List Scalar) (args : List Register) (live : RegisterSet) :
    Except CompileError (List Instruction) × RegisterSet :=
  if types.length ≠ args.length then
    (.error (.invariant (.argumentCount types.length args.length)), live)
  else
    match assign types with
    | .error cause => (.error (.overflow cause), live)
    | .ok targets => (moves targets args, live.union (Frame.entrySet targets))

end Convention

end StackCompiler
