import StackCompiler.Bytes
import StackCompiler.Ssa.Printer

-- Modules of single-assignment code: functions, global variables and declarations of functions that
-- are defined elsewhere and reached by name.

namespace StackCompiler.Ssa

-- A variable with a fixed place and its initial bytes.
structure GlobalVar where
  name : String
  size : Nat
  align : Nat
  value : List UInt8
deriving DecidableEq, Repr

structure External where
  name : String
  params : List Scalar
  result : Option Scalar
deriving DecidableEq, Repr

structure Module where
  name : String
  functions : List Function := []
  globals : List GlobalVar := []
  externals : List External := []
deriving DecidableEq, Repr

def GlobalVar.text (g : GlobalVar) : String :=
  let bytes := " ".intercalate (g.value.map Bytes.hexByte)
  s!"global {g.name} {g.size} bytes align {g.align} = [{bytes}]"

def External.text (e : External) : String :=
  let params := ", ".intercalate (e.params.map Scalar.name)
  match e.result with
  | some t => s!"external {t.name} {e.name}({params})"
  | none => s!"external {e.name}({params})"

namespace Module

def addGlobal (m : Module) (g : GlobalVar) : GlobalId × Module :=
  (⟨m.globals.length⟩, { m with globals := m.globals ++ [g] })

def global (m : Module) (id : GlobalId) : Except CompileError GlobalVar :=
  match m.globals[id.index]? with
  | some g => .ok g
  | none => .error (.dangling (.global id))

-- The first function of that name.
def function? (m : Module) (name : String) : Option Function :=
  m.functions.find? (·.name == name)

-- Globals, externals and functions, in this order.
def text (m : Module) : String :=
  s!"module {m.name}\n"
    ++ String.join (m.globals.map fun g => g.text ++ "\n")
    ++ String.join (m.externals.map fun e => e.text ++ "\n")
    ++ String.join (m.functions.map Function.text)

-- The text, unless it would name a block that was never created.
def checkedText (m : Module) : Except CompileError String := do
  m.functions.forM fun f => discard f.checkedText
  return m.text

end Module

end StackCompiler.Ssa
