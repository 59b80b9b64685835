import StackCompiler.Bytecode.Module

-- A sample module: the larger of two numbers, a sum by a loop, and a main function that calls both
-- and hands the outcome to an imported function.

namespace StackCompiler.Demo

open Bytecode

def sampleTypes : List Signature :=
  [⟨[.i32], []⟩, ⟨[.i32, .i32], [.i32]⟩, ⟨[.i32], [.i32]⟩, ⟨[], []⟩]

def maxBody : Body :=
  { type := 1
    locals := []
    code :=
      [.localGet 0, .localGet 1, .compare .i32 .gt, .if_ (.value .i32),
       .localGet 0,
       .else_,
       .localGet 1,
       .end_,
       .end_] }

def sumBody : Body :=
  { type := 2
    locals := [.i32]
    code :=
      [.block .empty, .loop .empty,
       .localGet 0, .eqz .i32, .brIf 1,
       .localGet 1, .localGet 0, .binary .i32 .add, .localSet 1,
       .localGet 0, .const (.i32 1), .binary .i32 .sub, .localSet 0,
       .br 0,
       .end_, .end_,
       .localGet 1,
       .end_] }

-- Function 0 is the import; `larger` and `sum` are the indices of the other two.
def mainBody (larger sum : Nat) : Body :=
  { type := 3
    locals := []
    code :=
      [.const (.i32 7), .const (.i32 3), .call larger, .call sum, .call 0, .end_] }

def sample : Module :=
  let m : Module := { types := sampleTypes, imports := [⟨"env", "print", .function 0⟩] }
  let (larger, m) := m.addFunction "max" maxBody
  let (sum, m) := m.addFunction "sum" sumBody
  (m.addFunction "main" (mainBody larger sum)).2

end StackCompiler.Demo
