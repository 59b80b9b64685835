import StackCompiler.Register.Class

-- The machine that code is generated for.

namespace StackCompiler.Target

def name : String := "x86_64"

def framePointer : Register := .rbp

def stackPointer : Register := .rsp

def classes : List RegisterClass := RegisterClass.all

end StackCompiler.Target
