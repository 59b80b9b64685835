import StackCompiler.Error
import StackCompiler.Machine.Instruction

-- The bytes of instructions that encode alike wherever they stand. They stand for the encodings that
-- iced-x86 takes where there are several: the form with the accumulator before all others, a single byte
-- for an immediate that fits, moves with the source in the register field, except for vectors, and an
-- extension byte only where one is needed.

namespace StackCompiler.Machine

-- The hardware number of a general purpose register.
def generalNumber (r : Register) : Except EncodingError Nat :=
  if r.bank = Register.generalBank ∧ r.id < 16 then .ok r.id else .error (.invalidRegister r)

-- The hardware number of a vector register.
def vectorNumber (r : Register) : Except EncodingError Nat :=
  if r.bank = Register.vectorBank ∧ r.id < 16 then .ok r.id else .error (.invalidRegister r)

-- Immediates are signed words of 32 bits, and only the non-negative half is in use.
def immediate (value : Nat) : Except EncodingError Nat :=
  if value < 0x80000000 then .ok value else .error (.immediateRange value)

namespace Encoding

-- The top bit of a register number, for the extension byte.
def high (number : Nat) : Nat :=
  number / 8

-- The operand byte for two registers.
def operands (reg rm : Nat) : UInt8 :=
  UInt8.ofNat (0xC0 + reg % 8 * 8 + rm % 8)

-- The extension byte of a 64-bit instruction on two registers.
def wide (reg rm : Nat) : UInt8 :=
  UInt8.ofNat (0x48 + high reg * 4 + high rm)

-- A one-byte instruction on a register; the upper eight registers need an extension byte.
def short (opcode number : Nat) : List UInt8 :=
  (if number < 8 then [] else [0x41]) ++ [UInt8.ofNat (opcode + number % 8)]

def push (number : Nat) : List UInt8 :=
  short 0x50 number

def pop (number : Nat) : List UInt8 :=
  short 0x58 number

-- Arithmetic with an immediate. The operation is number `ext` of its group. The accumulator has a
-- form of its own, and an immediate below 128 takes a single byte.
def arith (ext number value : Nat) : List UInt8 :=
  if number = 0 then
    [0x48, UInt8.ofNat (ext * 8 + 5)] ++ Bytes.littleEndian 4 value
  else if value < 128 then
    [wide 0 number, 0x83, operands ext number, UInt8.ofNat value]
  else
    [wide 0 number, 0x81, operands ext number] ++ Bytes.littleEndian 4 value

def add (number value : Nat) : List UInt8 :=
  arith 0 number value

def sub (number value : Nat) : List UInt8 :=
  arith 5 number value

def moveGeneral (dst src : Nat) : List UInt8 :=
  [wide src dst, 0x89, operands src dst]

def moveVector (dst src : Nat) : List UInt8 :=
  (if dst < 8 ∧ src < 8 then [] else [UInt8.ofNat (0x40 + high dst * 4 + high src)])
    ++ [0x0F, 0x28, operands dst src]

end Encoding

end StackCompiler.Machine
