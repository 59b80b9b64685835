import StackCompiler.Lowering.Module
import StackCompiler.Proofs.Lowering.Direct.Function

-- The lowering of a module, with the names of its functions known beforehand.

namespace StackCompiler

def Bytecode.Module.globalSlots (m : Bytecode.Module) : List Lowering.GlobalSlot :=
  m.globals.zipIdx.map fun (g, i) => g.toSlot i

namespace Lowering.Direct

open Ssa (Function)

def noteExport (e : Bytecode.Export) : Lower Unit := do
  if e.kind ≠ .function then
    note (.exportIgnored e.name)

-- What is done with a module before its functions.
def survey (m : Bytecode.Module) :
    Lower (List Ssa.External × List Ssa.GlobalVar × List Callee) := do
  let imports ← ofExcept (m.imports.mapM m.external)
  m.exports.forM noteExport
  let globals ← ofExcept (m.globals.zipIdx.mapM fun (g, i) => g.toVariable i)
  let own ← ofExcept (m.bodies.mapM fun body => m.signature body.type)
  let signatures := imports.map Prod.snd ++ own
  let callees := signatures.zipIdx.map fun (s, i) => (⟨m.functionName i, s⟩ : Callee)
  return (imports.map Prod.fst, globals, callees)

-- Lowers bodies one after the other, each under the name and the signature that it comes with.
def lowerBodies (options : Options) (globals : List GlobalSlot) (callees : List Callee)
    (bodies : List (Callee × Bytecode.Body)) : Lower (List Function) :=
  bodies.mapM fun (own, body) => lowerFunction options globals callees own body

def lowerModule (options : Options) (m : Bytecode.Module) : Lower Ssa.Module := do
  let (externals, globals, callees) ← survey m
  let functions ← lowerBodies options m.globalSlots callees
    ((callees.drop externals.length).zip m.bodies)
  return { name := "mainmodule", functions, globals, externals }

-- The functions that are finished before one of the bodies fails, or all of them.
def finished (options : Options) (globals : List GlobalSlot) (callees : List Callee) :
    List (Callee × Bytecode.Body) → State → List Function
  | [], _ => []
  | (own, body) :: bodies, s =>
    match lowerFunction options globals callees own body s with
    | .ok f t => f :: finished options globals callees bodies t
    | .error .. => []

theorem lowerBodies_cons {options : Options} {globals : List GlobalSlot} {callees : List Callee}
    {own : Callee} {body : Bytecode.Body} {bodies : List (Callee × Bytecode.Body)} :
    lowerBodies options globals callees ((own, body) :: bodies) = (do
      let f ← lowerFunction options globals callees own body
      let rest ← lowerBodies options globals callees bodies
      return f :: rest) :=
  List.mapM_cons

-- The state before the first function of a module.
def State.start (j : Journal) : State :=
  { journal := j
    blockCount := 0
    function := .empty "" none
    block := ⟨0⟩
    stack := []
    regions := []
    isDead := false
    isEnded := false }

-- The functions of a module that are finished, whether or not all of them are.
def finishedFunctions (m : Bytecode.Module) (options : Options) (j : Journal) : List Function :=
  match survey m (.start j) with
  | .ok (externals, _, callees) s =>
    finished options m.globalSlots callees ((callees.drop externals.length).zip m.bodies) s
  | .error .. => []

end Lowering.Direct

end StackCompiler
