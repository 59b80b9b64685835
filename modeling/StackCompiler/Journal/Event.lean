import StackCompiler.Error
import StackCompiler.Target

-- The events of a compilation. An event can count towards the statistics, show as a line of the
-- log, or both.

namespace StackCompiler

inductive Level where
  | warn
  | debug
  | trace
deriving DecidableEq, Repr

namespace Level

def name : Level → String
  | warn => "WARN"
  | debug => "DEBUG"
  | trace => "TRACE"

-- How much a level lets through; the most severe has the lowest rank.
def rank : Level → Nat
  | warn => 0
  | debug => 1
  | trace => 2

end Level

inductive Event where
  | exportIgnored (name : String)
  | functionStarted (name : String) (signature : Bytecode.Signature)
  | signatureRejected (subject : String) (cause : Overflow)
  | blockNumbered (number : Nat)
  | blockCreated
  | localDeclared (index : Nat) (function : String)
  | instructionReached (position total : Nat) (opcode : String)
  | instructionLowered (opcode : String)
  | callLowered (callee : String)
  | phiCreated
  | operandsLeft (function : String) (count : Nat)
  | unreachableRemoved (function : String) (count : Nat)
  | blocksPruned (count : Nat)
  | functionPrinted (text : String)
  | functionLowered (name : String) (blocks : Nat)
  | registerAssigned (register : Register) (owner : Ssa.ValueId)
  | callSaves (callee : String) (registers : Nat)
  | codeGenerated (function : String) (instructions : Nat)
deriving DecidableEq, Repr

namespace Event

-- The line that an event leaves in the log.
def logLine? : Event → Option (Level × String)
  | exportIgnored name => some (.debug, s!"ignoring non-function export {name}")
  | functionStarted name signature =>
    some (.debug, s!"Generating wasm function {name} {signature.text}")
  | signatureRejected subject cause =>
    let error := CompileError.overflow cause
    some (.debug, s!"{subject}: {error.message}")
  | blockNumbered number => some (.debug, s!"creating block {number}")
  | localDeclared index function => some (.trace, s!"declared local {index} of {function}")
  | instructionReached position total opcode => some (.trace, s!"{position}/{total} {opcode}")
  | callLowered callee => some (.debug, s!"Call site recorded: {callee}")
  | operandsLeft function count => some (.warn, s!"{function}: {count} operands left on the stack")
  | unreachableRemoved function count =>
    some (.debug, s!"{function}: pruned {count} unreachable blocks")
  | functionPrinted text => some (.debug, text)
  | registerAssigned register owner =>
    some (.trace, s!"assign {register.debug} to {owner.text}")
  | callSaves callee registers => some (.trace, s!"call {callee} saves {registers} registers")
  | codeGenerated function instructions =>
    some (.debug, s!"{Target.name}: {instructions} instructions for {function}")
  | blockCreated | instructionLowered _ | phiCreated | blocksPruned _ | functionLowered _ _ => none

end Event

end StackCompiler
