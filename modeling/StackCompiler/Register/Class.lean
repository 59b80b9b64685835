import StackCompiler.Register.Basic
import StackCompiler.Scalar

-- Register classes: the registers that can stand in for one another for values of some types.

namespace StackCompiler

structure RegisterClass where
  name : String
  bank : Nat
  -- The types whose values the class holds.
  types : List Scalar
  -- The registers to hand out, the preferred ones first.
  registers : List Register
  -- The registers of the class that a function must hand back unchanged.
  calleeSaved : List Register
deriving DecidableEq, Repr

namespace RegisterClass

def holds (c : RegisterClass) (type : Scalar) : Bool :=
  c.types.contains type

def isCalleeSaved (c : RegisterClass) (r : Register) : Bool :=
  c.calleeSaved.contains r

open Register in
def reg64 : RegisterClass :=
  { name := "reg64"
    bank := generalBank
    types := [.i32, .i64, .ptr]
    registers := [rbx, rdx, rcx, rdi, rsi, r8, r9, r10, r11, r14, r15]
    calleeSaved := Register.calleeSaved }

-- The byte registers are the low ends of `rax` and `rbx`, under the same numbers.
open Register in
def reg8 : RegisterClass :=
  { name := "reg8"
    bank := generalBank
    types := [.i8]
    registers := [rax, rbx]
    calleeSaved := [rbx] }

def vector : RegisterClass :=
  { name := "xmm"
    bank := Register.vectorBank
    types := [.f32, .f64]
    registers := (List.range 16).map Register.xmm
    calleeSaved := [] }

def all : List RegisterClass :=
  [reg64, reg8, vector]

-- The class whose registers hold values of a type.
def ofType? (type : Scalar) : Option RegisterClass :=
  all.find? (·.holds type)

end RegisterClass

end StackCompiler
