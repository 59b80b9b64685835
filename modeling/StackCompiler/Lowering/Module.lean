import StackCompiler.Lowering.Function
import StackCompiler.Ssa.Module

-- The lowering of a module: imports become externals, globals become variables, and every body
-- becomes a function that others reach by name.

namespace StackCompiler

open Lowering Ssa

namespace Bytecode.Module

def signature (m : Bytecode.Module) (index : Nat) : Except CompileError Signature :=
  match m.types[index]? with
  | some s => .ok s
  | none => .error (.malformed (.typeIndex index))

-- An import as an external, with its signature. Only functions can be imported.
def external (m : Bytecode.Module) (i : Import) : Except CompileError (External × Signature) :=
  match i.item with
  | .function type => do
    let s ← m.signature type
    let result ← s.result
    return (⟨i.name, s.paramTypes, result⟩, s)
  | item => throw (.unsupported (.importKind item.kind i.origin i.name))

end Bytecode.Module

namespace Bytecode.Global

-- A global takes a literal of its own type, and one that is a pointer takes a 64-bit integer.
def accepts (g : Global) : Bool :=
  g.initial.type == g.type || (g.type == .ptr && g.initial.type == .i64)

def toVariable (g : Global) (index : Nat) : Except CompileError GlobalVar :=
  let type := g.type.scalar
  if g.accepts then
    .ok ⟨"global" ++ toString index, type.size, type.size, g.initial.bytes⟩
  else
    .error (.typeMismatch .globalInitializer type g.initial.type.scalar)

def toSlot (g : Global) (index : Nat) : GlobalSlot :=
  ⟨g.type.scalar, g.isMutable, ⟨index⟩⟩

end Bytecode.Global

namespace Lowering

-- The name of function `index`, which gets one if it has none yet.
def Space.nameOf (space : Space) (index : Nat) : String × Space :=
  match space.names.lookup index with
  | some name => (name, space)
  | none =>
    let name := "unnamed" ++ toString index
    (name, { space with names := (index, name) :: space.names })

def declareImport (m : Bytecode.Module) (space : Space) (i : Bytecode.Import) : Lower Space := do
  let (external, signature) ← ofExcept (m.external i)
  Builder.addExternal external
  return { space with
    signatures := space.signatures ++ [signature]
    names := (space.signatures.length, i.name) :: space.names }

-- An exported function gets the name of the export, which hides the one of an import.
def declareExport (space : Space) (e : Bytecode.Export) : Lower Space := do
  if e.kind = .function then
    return { space with names := (e.index, e.name) :: space.names }
  note (.exportIgnored e.name)
  return space

def declareGlobal (space : Space) (g : Bytecode.Global) : Lower Space := do
  let id ← Builder.addGlobal (← ofExcept (g.toVariable space.globals.length))
  return { space with globals := space.globals ++ [g.toSlot id.index] }

-- Numbers the bodies after the imports, before any of them is lowered.
def declareBodies (m : Bytecode.Module) :
    Space → List Bytecode.Body → Lower (List (Callee × Bytecode.Body) × Space)
  | space, [] => return ([], space)
  | space, body :: rest => do
    let signature ← ofExcept (m.signature body.type)
    let (name, space) := space.nameOf space.signatures.length
    let (bodies, space) ←
      declareBodies m { space with signatures := space.signatures ++ [signature] } rest
    return ((⟨name, signature⟩, body) :: bodies, space)

def lowerModule (options : Options) (m : Bytecode.Module) : Lower Ssa.Module := do
  let space ← m.imports.foldlM (declareImport m) {}
  let space ← m.exports.foldlM declareExport space
  let space ← m.globals.foldlM declareGlobal space
  let (bodies, space) ← declareBodies m space m.bodies
  bodies.forM fun (self, body) => discard (lowerFunction options space self body)
  Builder.finish

-- The state before the first function of a module.
def State.start (j : Journal) : State :=
  { journal := j
    blockCount := 0
    builder := .new "mainmodule"
    stack := []
    phis := []
    regions := []
    isDead := false
    isEnded := false }

end Lowering

-- Lowers a module to single-assignment form.
def Bytecode.Module.lower (m : Bytecode.Module) (options : Lowering.Options := {}) :
    Journaled CompileError Ssa.Module := fun j =>
  match lowerModule options m (.start j) with
  | .ok module s => .ok module s.journal
  | .error e s => .error e s.journal

end StackCompiler
