import StackCompiler.Bytecode.Instruction

-- Modules of stack code. Function indices count the imported functions first and then the bodies,
-- in the order in which the module lists them.

namespace StackCompiler.Bytecode

-- The kinds of things that cross a module's border.
inductive EntityKind where
  | function
  | table
  | memory
  | global
deriving DecidableEq, Repr

def EntityKind.name : EntityKind → String
  | function => "function"
  | table => "table"
  | memory => "memory"
  | global => "global"

-- What is imported; a function comes with the index of its signature.
inductive Imported where
  | function (type : Nat)
  | table
  | memory
  | global
deriving DecidableEq, Repr

def Imported.kind : Imported → EntityKind
  | function _ => .function
  | table => .table
  | memory => .memory
  | global => .global

structure Import where
  origin : String
  name : String
  item : Imported
deriving DecidableEq, Repr

-- The index of an imported function's signature.
def Import.type? (i : Import) : Option Nat :=
  match i.item with
  | .function type => some type
  | _ => none

structure Export where
  name : String
  kind : EntityKind
  index : Nat
deriving DecidableEq, Repr

structure Global where
  type : ValueType
  isMutable : Bool
  initial : Literal
deriving DecidableEq, Repr

-- A function body. Its locals are numbered after the parameters.
structure Body where
  type : Nat
  locals : List ValueType
  code : List Instruction
deriving DecidableEq, Repr

structure Module where
  types : List Signature := []
  imports : List Import := []
  globals : List Global := []
  bodies : List Body := []
  exports : List Export := []
deriving DecidableEq, Repr

namespace Module

-- The signature of function `index`, if there is such a function and it has one.
def signature? (m : Module) (index : Nat) : Option Signature :=
  (m.imports.filterMap Import.type? ++ m.bodies.map Body.type)[index]?.bind (m.types[·]?)

def importedFunctions (m : Module) : List Import :=
  m.imports.filter (·.item.kind == .function)

-- Adds a body, exported under `name`, and gives its function index.
def addFunction (m : Module) (name : String) (body : Body) : Nat × Module :=
  let index := m.importedFunctions.length + m.bodies.length
  (index, { m with
    bodies := m.bodies ++ [body]
    exports := m.exports ++ [⟨name, .function, index⟩] })

-- The name under which function `index` is called: that of the last export of the function, else
-- that of its import, else one made from the index.
def functionName (m : Module) (index : Nat) : String :=
  match m.exports.reverse.find? fun e => e.kind == .function && e.index == index with
  | some e => e.name
  | none =>
    match m.importedFunctions[index]? with
    | some i => i.name
    | none => "unnamed" ++ toString index

end Module

end StackCompiler.Bytecode
