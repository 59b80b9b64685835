import StackCompiler.Bytecode.Module
import StackCompiler.Register.Basic
import StackCompiler.Ssa.Instruction

-- Why a compilation can fail. Each cause is a constructor, and its wording stands in one `message`
-- function per type.

namespace StackCompiler

-- The result of a computation and the state that it leaves, unless it fails.
def outcome (x : EStateM ε σ α) (s : σ) : Except ε (α × σ) :=
  match x s with
  | .ok a t => .ok (a, t)
  | .error e _ => .error e

-- Runs a computation on a part of the state, also if it fails.
def zoom (part : σ → ρ) (replace : ρ → σ → σ) (x : EStateM ε ρ α) : EStateM ε σ α := fun s =>
  match x (part s) with
  | .ok a r => .ok a (replace r s)
  | .error e r => .error e (replace r s)

section Run

variable {x : EStateM ε σ α} {k : α → EStateM ε σ β} {s t : σ}

theorem get_bind (k : σ → EStateM ε σ β) (s : σ) : (get >>= k) s = k s s :=
  rfl

theorem bind_eq_of_eq_ok {a : α} (h : x s = .ok a t) : (x >>= k) s = k a t := by
  simp only [bind, EStateM.bind, h]

theorem bind_eq_of_eq_error {e : ε} (h : x s = .error e t) : (x >>= k) s = .error e t := by
  simp only [bind, EStateM.bind, h]

theorem exists_of_bind_eq_ok {b : β} (h : (x >>= k) s = .ok b t) :
    ∃ a u, x s = .ok a u ∧ k a u = .ok b t := by
  simp only [bind, EStateM.bind] at h
  cases hx : x s <;> rw [hx] at h
  case ok a u => exact ⟨a, u, rfl, h⟩
  case error => cases h

theorem cases_of_bind_eq_error {e : ε} (h : (x >>= k) s = .error e t) :
    x s = .error e t ∨ ∃ a u, x s = .ok a u ∧ k a u = .error e t := by
  simp only [bind, EStateM.bind] at h
  cases hx : x s <;> rw [hx] at h
  case ok a u => exact .inr ⟨a, u, rfl, h⟩
  case error =>
    cases h
    exact .inl rfl

end Run

-- Constructs that are well formed but have no lowering.
inductive Unsupported where
  | importKind (kind : Bytecode.EntityKind) (origin name : String)
  | results (count : Nat)
  | opcode (name : String)
  | blockSignature (index : Nat)
  | ifWithoutElse
  | comparisonOperand (consumer : String)
  | comparisonResult
  | callerSave (register : Register) (callee : String)
  | poolValue (kind label : String)
deriving DecidableEq, Repr

def Unsupported.message : Unsupported → String
  | importKind kind origin name => s!"import of kind {kind.name} ({origin}.{name})"
  | results count => s!"{count} return values"
  | opcode name => s!"opcode {name}"
  | blockSignature index => s!"block type with signature index {index}"
  | ifWithoutElse => "if with a result but no else"
  | comparisonOperand consumer => s!"comparison result consumed by {consumer}"
  | comparisonResult => "comparison result used as a region result"
  | callerSave register callee =>
    let name := register.name?.getD "non-gp register"
    s!"caller-save of {name} around call to {callee}"
  | poolValue kind label => s!"literal pool value of kind {kind} in {label}"

-- Faults in stack code.
inductive Malformed where
  | typeIndex (index : Nat)
  | localIndex (index : Nat)
  | globalIndex (index : Nat)
  | functionIndex (index : Nat)
  | immutableGlobal (index : Nat)
  | elseOutside
  | elseWithoutIf
  | branchDepth (opcode : String) (depth : Nat)
  | underflow (opcode : String)
  | afterEnd (opcode function : String)
  | openRegions (count : Nat) (function : String)
deriving DecidableEq, Repr

def Malformed.message : Malformed → String
  | typeIndex index => s!"type index {index} out of range"
  | localIndex index => s!"local index {index} out of range"
  | globalIndex index => s!"global index {index} out of range"
  | functionIndex index => s!"function index {index} out of range"
  | immutableGlobal index => s!"global.set of immutable global {index}"
  | elseOutside => "else outside of any region"
  | elseWithoutIf => "else without matching if"
  | branchDepth opcode depth => s!"{opcode} depth {depth} exceeds nesting"
  | underflow opcode => s!"operand stack underflow at {opcode}"
  | afterEnd opcode function => s!"{opcode} after the end of {function}"
  | openRegions count function => s!"{count} regions still open at the end of {function}"

-- What can be wrong with a block of a finished function.
inductive Defect where
  | unreachable
  | entryPhi
  | empty
  | unterminated
  | earlyTerminator
  | latePhi
  | repeatedIncoming
  | incomingMismatch
  | operandType
deriving DecidableEq, Repr

def Defect.message : Defect → String
  | unreachable => "unreachable from entry"
  | entryPhi => "entry block has phis"
  | empty => "empty block"
  | unterminated => "does not end in a terminator"
  | earlyTerminator => "terminator before end of block"
  | latePhi => "phi after ordinary instruction"
  | repeatedIncoming => "phi lists a predecessor twice"
  | incomingMismatch => "phi incoming blocks differ from predecessors"
  | operandType => "binop operand type differs from result"

-- Broken rules of construction.
inductive Violation where
  | foreignBlock (block : Ssa.BlockId) (function : String)
  | closedBlock (mnemonic block : String)
  | retargetEmpty (block : String)
  | noEdge (block target : String)
  | nestedFunction (name opened : String)
  | noFunction
  | noBlock
  | unfinished (function : String)
  | noEntry (function : String)
  | defect (function block : String) (what : Defect)
  | untyped (value : Ssa.ValueId)
  | unnamedFunction (index : Nat)
  | regionOperands (count : Nat)
  | argumentCount (types registers : Nat)
  | argumentBank (bank : Nat) (target : Register)
deriving DecidableEq, Repr

def Violation.message : Violation → String
  | foreignBlock block function => s!"block {block.index} does not belong to {function}"
  | closedBlock mnemonic block => s!"emitting {mnemonic} into closed block {block}"
  | retargetEmpty block => s!"retargeting empty block {block}"
  | noEdge block target => s!"block {block} does not branch to {target}"
  | nestedFunction name opened => s!"starting {name} while {opened} is still open"
  | noFunction => "no function under construction"
  | noBlock => "no active block"
  | unfinished function => s!"function {function} was never finished"
  | noEntry function => s!"{function} has no entry block"
  | defect function block what => s!"{function}: block {block} {what.message}"
  | untyped value => s!"{value.text} has no type"
  | unnamedFunction index => s!"function {index} has no name"
  | regionOperands count =>
    s!"{count} operands above the region base when closing a result region, expected 1"
  | argumentCount types registers => s!"{types} argument types for {registers} argument registers"
  | argumentBank bank target =>
    let name := target.name?.getD "?"
    s!"argument in bank {bank} cannot move to {name}"

-- A bank of argument registers that is too small for a signature.
structure Overflow where
  bank : String
  count : Nat
  available : Nat
deriving DecidableEq, Repr

def Overflow.message (o : Overflow) : String :=
  s!"{o.count} {o.bank} arguments, only {o.available} registers"

inductive AllocationError where
  | noneFree (cls : String)
  | notAllocated (register : Register)
  | inUse (register : Register)
deriving DecidableEq, Repr

def AllocationError.message : AllocationError → String
  | noneFree cls => s!"no registers available in class {cls}"
  | notAllocated register => s!"register {register.debug} is not allocated"
  | inUse register => s!"register {register.debug} is already live"

inductive EncodingError where
  | invalidRegister (register : Register)
  | immediateRange (value : Nat)
  | unknownTarget (name : String)
  | duplicateLabel (name : String)
  -- A second label before the next instruction.
  | labelPending
  -- A label with no instruction after it.
  | labelUnused
  -- A displacement that takes more than 32 bits.
  | outOfReach (next target : BitVec 64)
deriving DecidableEq, Repr

def EncodingError.message : EncodingError → String
  | invalidRegister register => s!"invalid register {register.debug} for operation"
  | immediateRange value => s!"immediate {value} does not fit in 32 bits"
  | unknownTarget name => s!"unknown call target {name}"
  | duplicateLabel name => s!"label {name} defined twice"
  | labelPending => "assembly error: Only one label per instruction is allowed"
  | labelUnused => "assembly error: Unused label. Did you forget to add an instruction?"
  | outOfReach next target =>
    s!"assembly error: Branch out of range: NextIP: {next.toNat}, target: {target.toNat}"

-- The places where stack code meets a type that it does not expect.
inductive TypeContext where
  | binaryOperand
  | comparisonOperand
  | negOperand
  | floorOperand
  | localSet
  | globalSet
  | loadAddress
  | storeValue
  | storeAddress
  | callArgument
  | returnValue
  | blockResult
  | branchCondition
  | globalInitializer
deriving DecidableEq, Repr

def TypeContext.message : TypeContext → String
  | binaryOperand => "binary operand"
  | comparisonOperand => "comparison operand"
  | negOperand => "neg operand"
  | floorOperand => "floor operand"
  | localSet => "local.set"
  | globalSet => "global.set"
  | loadAddress => "load address"
  | storeValue => "store value"
  | storeAddress => "store address"
  | callArgument => "call argument"
  | returnValue => "return"
  | blockResult => "block result"
  | branchCondition => "branch condition"
  | globalInitializer => "global initializer"

-- A number that names nothing.
inductive Dangling where
  | value (id : Ssa.ValueId)
  | block (id : Ssa.BlockId)
  | global (id : Ssa.GlobalId)
  | phi (index : Nat)
deriving DecidableEq, Repr

def Dangling.message : Dangling → String
  | value id => s!"value {id.index} was never created"
  | block id => s!"block {id.index} was never created"
  | global id => s!"global {id.index} was never created"
  | phi index => s!"phi {index} was never created"

inductive CompileError where
  | unsupported (cause : Unsupported)
  | typeMismatch (context : TypeContext) (expected found : Scalar)
  | overflow (cause : Overflow)
  | invariant (cause : Violation)
  | malformed (cause : Malformed)
  | allocation (cause : AllocationError)
  | encoding (cause : EncodingError)
  | dangling (cause : Dangling)
deriving DecidableEq, Repr

def CompileError.message : CompileError → String
  | unsupported cause => s!"Unsupported construct: {cause.message}"
  | typeMismatch context expected found =>
    s!"Type mismatch in {context.message}: expected {expected.name}, found {found.name}"
  | overflow cause => s!"Calling convention overflow: {cause.message}"
  | invariant cause => s!"Internal invariant violated: {cause.message}"
  | malformed cause => s!"Malformed function body: {cause.message}"
  | allocation cause => s!"Register allocation failed: {cause.message}"
  | encoding cause => s!"Encoding failed: {cause.message}"
  | dangling cause => s!"Dangling reference: {cause.message}"

end StackCompiler
