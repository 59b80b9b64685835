import StackCompiler.Error

-- The register part of the System V convention: each argument takes the next register of its bank,
-- and there are six for integers and pointers and eight for floating point numbers. Nothing is
-- passed on the stack, so a signature with more arguments is refused.

namespace StackCompiler

namespace Convention

inductive Bank where
  | general
  | vector
deriving DecidableEq, Repr

namespace Bank

def ofType (type : Scalar) : Bank :=
  if type.isFloat then vector else general

def number : Bank → Nat
  | general => Register.generalBank
  | vector => Register.vectorBank

def name : Bank → String
  | general => "integer"
  | vector => "float"

open Register in
-- The argument registers of a bank, in the order in which arguments take them.
def argumentRegisters : Bank → List Register
  | general => [rdi, rsi, rdx, rcx, r8, r9]
  | vector => (List.range 8).map xmm

end Bank

-- How many argument registers of each bank are taken.
structure Assigner where
  general : Nat := 0
  vector : Nat := 0
deriving DecidableEq, Repr

namespace Assigner

def taken (a : Assigner) : Bank → Nat
  | .general => a.general
  | .vector => a.vector

def take (a : Assigner) : Bank → Assigner
  | .general => { a with general := a.general + 1 }
  | .vector => { a with vector := a.vector + 1 }

-- The register of the next argument, as long as its bank has one.
def next? (a : Assigner) (type : Scalar) : Option (Register × Assigner) :=
  let bank := Bank.ofType type
  (bank.argumentRegisters[a.taken bank]?).map fun r => (r, a.take bank)

end Assigner

-- The shortfall of a bank under the signature `types`.
def shortfall (types : List Scalar) (bank : Bank) : Overflow :=
  { bank := bank.name
    count := types.countP (Bank.ofType · == bank)
    available := bank.argumentRegisters.length }

-- The registers of the arguments of a signature. The first argument that finds its bank empty
-- decides what is reported.
def assign (types : List Scalar) : Except Overflow (List Register) :=
  go {} types
where
  go (a : Assigner) : List Scalar → Except Overflow (List Register)
    | [] => .ok []
    | type :: rest =>
      match a.next? type with
      | none => .error (shortfall types (.ofType type))
      | some (r, a) => (go a rest).map (r :: ·)

def resultRegister (type : Scalar) : Register :=
  match Bank.ofType type with
  | .general => .rax
  | .vector => .xmm 0

end Convention

end StackCompiler
