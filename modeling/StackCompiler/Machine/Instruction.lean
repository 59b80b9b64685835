import StackCompiler.Bytes
import StackCompiler.Register.Basic

-- The machine instructions that frames and calls are made of.

namespace StackCompiler.Machine

inductive Instruction where
  -- Names the place of the next instruction or byte.
  | label (name : String)
  | push (register : Register)
  | pop (register : Register)
  | subImm (register : Register) (value : Nat)
  | addImm (register : Register) (value : Nat)
  -- A copy between two registers of one bank.
  | move (dst src : Register)
  | call (target : String)
  | ret
  | byte (value : UInt8)
deriving DecidableEq, Repr

namespace Instruction

def text : Instruction → String
  | label name => s!"{name}:"
  | push r => s!"push {r.text}"
  | pop r => s!"pop {r.text}"
  | subImm r value => s!"sub {r.text}, {value}"
  | addImm r value => s!"add {r.text}, {value}"
  | move dst src =>
    let mnemonic := if dst.bank = Register.vectorBank then "movaps" else "mov"
    s!"{mnemonic} {dst.text}, {src.text}"
  | call target => s!"call {target}"
  | ret => "ret"
  | byte value => "db 0x" ++ Bytes.hexByte value

def isLabel : Instruction → Bool
  | label _ => true
  | _ => false

end Instruction

end StackCompiler.Machine
