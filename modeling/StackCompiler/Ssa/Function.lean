import StackCompiler.Error

-- Functions in single-assignment form: numbered values and blocks, and the layout, which lists the
-- blocks that belong to the function. Code grows only at the end of a block that is still open.

namespace StackCompiler.Ssa

-- The definition of a value. Stores and terminators have no type, and parameters no block.
structure ValueDef where
  name : String
  type : Option Scalar
  op : Op
  block : Option BlockId
deriving DecidableEq, Repr

structure BlockDef where
  name : String
  insts : List ValueId
deriving DecidableEq, Repr

-- A function, or a procedure if there is no result.
@[ext]
structure Function where
  name : String
  result : Option Scalar
  params : List ValueId
  values : Array ValueDef
  blocks : Array BlockDef
  layout : List BlockId
  entry : Option BlockId
deriving DecidableEq, Repr

namespace Function

def empty (name : String) (result : Option Scalar) : Function :=
  { name, result, params := [], values := #[], blocks := #[], layout := [], entry := none }

def value? (f : Function) (v : ValueId) : Option ValueDef :=
  f.values[v.index]?

def block? (f : Function) (b : BlockId) : Option BlockDef :=
  f.blocks[b.index]?

-- A block's name, empty for a number that names no block.
def blockName (f : Function) (b : BlockId) : String :=
  ((f.block? b).map BlockDef.name).getD ""

def hasBlock (f : Function) (b : BlockId) : Bool :=
  b.index < f.blocks.size

-- The definitions of a block's instructions, each with its number.
def instructions (f : Function) (b : BlockId) : List (ValueId × ValueDef) :=
  match f.block? b with
  | some block => block.insts.filterMap fun v => (f.value? v).map fun d => (v, d)
  | none => []

-- The last instruction of a block, if it ends the block.
def terminator? (f : Function) (b : BlockId) : Option Op := do
  let block ← f.block? b
  let last ← block.insts.getLast?
  let d ← f.value? last
  if d.op.isTerminator then some d.op else none

def isClosed (f : Function) (b : BlockId) : Bool :=
  (f.terminator? b).isSome

def successors (f : Function) (b : BlockId) : List BlockId :=
  match f.terminator? b with
  | some op => op.successors
  | none => []

-- The blocks of the layout that can go to `b`, each once.
def predecessors (f : Function) (b : BlockId) : List BlockId :=
  f.layout.filter fun p => (f.successors p).contains b

def phis (f : Function) (b : BlockId) : List ValueId :=
  (f.instructions b).filterMap fun (v, d) => if d.op.isPhi then some v else none

theorem mem_predecessors_iff {f : Function} {b p : BlockId} :
    p ∈ f.predecessors b ↔ p ∈ f.layout ∧ b ∈ f.successors p := by
  simp [predecessors]

-- Adds a value that no block lists.
def pushValue (f : Function) (d : ValueDef) : ValueId × Function :=
  (⟨f.values.size⟩, { f with values := f.values.push d })

def addParam (f : Function) (name : String) (type : Scalar) : ValueId × Function :=
  let (v, g) := f.pushValue ⟨name, some type, .param f.params.length, none⟩
  (v, { g with params := g.params ++ [v] })

-- Adds an empty block at the end of the layout. The first block is the entry.
def addBlock (f : Function) (name : String) : BlockId × Function :=
  let b : BlockId := ⟨f.blocks.size⟩
  (b, { f with
    blocks := f.blocks.push ⟨name, []⟩
    layout := f.layout ++ [b]
    entry := f.entry.or (some b) })

-- A change to a function, which gives the function up to where it fails.
abbrev Edit := EStateM CompileError Function

-- Adds an instruction at the end of a block of the layout, unless the block is closed.
def append (b : BlockId) (name : String) (type : Option Scalar) (op : Op) : Edit ValueId := do
  let f ← get
  if !f.layout.contains b then
    throw (.invariant (.foreignBlock b f.name))
  if f.isClosed b then
    throw (.invariant (.closedBlock op.mnemonic (f.blockName b)))
  let (v, g) := f.pushValue ⟨name, type, op, some b⟩
  set { g with blocks := g.blocks.modify b.index fun d => { d with insts := d.insts ++ [v] } }
  return v

-- Moves the first edge from `b` to `old` over to `new`.
def retarget (b old new : BlockId) : Edit Unit := do
  let f ← get
  let some block := f.block? b | throw (.dangling (.block b))
  let some last := block.insts.getLast? | throw (.invariant (.retargetEmpty block.name))
  match (f.value? last).bind fun d => d.op.retarget? old new with
  | some op => set { f with values := f.values.modify last.index fun d => { d with op := op } }
  | none =>
    let some target := f.block? old | throw (.dangling (.block old))
    throw (.invariant (.noEdge block.name target.name))

-- The type of a value that exists; a store or terminator has none.
def typeOf (f : Function) (v : ValueId) : Except CompileError (Option Scalar) :=
  match f.value? v with
  | some d => .ok d.type
  | none => .error (.dangling (.value v))

end Function

end StackCompiler.Ssa
