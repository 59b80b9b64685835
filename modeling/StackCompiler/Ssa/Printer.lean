import StackCompiler.Ssa.Flow

-- The text of functions, one instruction a line. The name of a value stands behind it as a remark.

namespace StackCompiler.Ssa

namespace Op

-- The blocks that the text of an instruction names.
def namedBlocks : Op → List BlockId
  | phi incoming => incoming.map Prod.fst
  | op => op.successors

-- The text of an instruction, given the names of the blocks.
def text (blockName : BlockId → String) : Op → String
  | param index => s!"param {index}"
  | const value => s!"const {value.text}"
  | alloc size align => s!"alloc {size} align {align}"
  | globalAddr id => s!"global {id.index}"
  | binary op lhs rhs => s!"{lhs.text} {op.symbol} {rhs.text}"
  | neg operand => s!"-{operand.text}"
  | cast operand => s!"cast {operand.text}"
  | load address => s!"load {address.text}"
  | store value address => s!"store {value.text}, {address.text}"
  | phi [] => "phi"
  | phi incoming =>
    "phi " ++ ", ".intercalate (incoming.map fun (b, v) => s!"{blockName b}: {v.text}")
  | call c => s!"call {c.callee}(" ++ ", ".intercalate (c.args.map ValueId.text) ++ ")"
  | jump target => s!"jmp {blockName target}"
  | branch lhs cond rhs yes no =>
    s!"cjmp {lhs.text} {cond.symbol} {rhs.text} ? {blockName yes} : {blockName no}"
  | ret value => s!"return {value.text}"
  | exit => "exit"

end Op

namespace Function

def instructionText (f : Function) (v : ValueId) (d : ValueDef) : String :=
  match d.type with
  | none => d.op.text f.blockName
  | some t =>
    let remark := if d.name.isEmpty then "" else s!" ; {d.name}"
    s!"{v.text} = {t.name} {d.op.text f.blockName}{remark}"

def paramText (f : Function) (v : ValueId) : String :=
  match (f.value? v).bind ValueDef.type with
  | some t => s!"{t.name} {v.text}"
  | none => v.text

def header (f : Function) : String :=
  let params := ", ".intercalate (f.params.map f.paramText)
  match f.result with
  | some t => s!"function {t.name} {f.name}({params})"
  | none => s!"procedure {f.name}({params})"

def blockText (f : Function) (b : BlockId) : String :=
  let lines := (f.instructions b).map fun (v, d) => s!"    {f.instructionText v d}\n"
  s!"  {f.blockName b}:\n" ++ String.join lines

-- The header, then the blocks in layout order.
def text (f : Function) : String :=
  f.header ++ "\n" ++ String.join (f.layout.map f.blockText)

-- A block that the text would name although it was never created.
def danglingName? (f : Function) : Option BlockId :=
  let named := f.layout.flatMap fun b => (f.instructions b).flatMap fun (_, d) => d.op.namedBlocks
  named.find? fun b => !f.hasBlock b

-- The text, unless it would name a block that was never created.
def checkedText (f : Function) : Except CompileError String :=
  match f.danglingName? with
  | some b => .error (.dangling (.block b))
  | none => .ok f.text

end Function

end StackCompiler.Ssa
