-- Machine registers, named by a bank and a number in it. Bank 0 holds the general purpose registers
-- in their hardware order and bank 1 the vector registers.

namespace StackCompiler

structure Register where
  bank : Nat
  id : Nat
deriving DecidableEq, Repr

namespace Register

def generalBank : Nat := 0

def vectorBank : Nat := 1

def rax : Register := ⟨generalBank, 0⟩
def rcx : Register := ⟨generalBank, 1⟩
def rdx : Register := ⟨generalBank, 2⟩
def rbx : Register := ⟨generalBank, 3⟩
def rsp : Register := ⟨generalBank, 4⟩
def rbp : Register := ⟨generalBank, 5⟩
def rsi : Register := ⟨generalBank, 6⟩
def rdi : Register := ⟨generalBank, 7⟩
def r8 : Register := ⟨generalBank, 8⟩
def r9 : Register := ⟨generalBank, 9⟩
def r10 : Register := ⟨generalBank, 10⟩
def r11 : Register := ⟨generalBank, 11⟩
def r12 : Register := ⟨generalBank, 12⟩
def r13 : Register := ⟨generalBank, 13⟩
def r14 : Register := ⟨generalBank, 14⟩
def r15 : Register := ⟨generalBank, 15⟩

def xmm (id : Nat) : Register := ⟨vectorBank, id⟩

-- The general purpose registers that a function must hand back unchanged, in the order in which it
-- saves them.
def calleeSaved : List Register := [rbx, r12, r13, r14, r15]

def generalNames : List String :=
  ["rax", "rcx", "rdx", "rbx", "rsp", "rbp", "rsi", "rdi",
   "r8", "r9", "r10", "r11", "r12", "r13", "r14", "r15"]

-- The assembly name, if the register exists.
def name? (r : Register) : Option String :=
  if r.bank = generalBank then generalNames[r.id]?
  else if r.bank = vectorBank ∧ r.id < 16 then some ("xmm" ++ toString r.id)
  else none

-- The name in assembly text, where a register that does not exist shows its numbers.
def text (r : Register) : String :=
  r.name?.getD ("r" ++ toString r.bank ++ ":" ++ toString r.id)

-- The form in which messages show a register.
def debug (r : Register) : String :=
  "AsmReg \x7b bank: " ++ toString r.bank ++ ", id: " ++ toString r.id ++ " \x7d"

end Register

end StackCompiler
