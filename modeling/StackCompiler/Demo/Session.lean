import StackCompiler.Compilation
import StackCompiler.Demo.Options
import StackCompiler.Demo.Sample

-- A run of the demo: what it prints and how it exits.

namespace StackCompiler.Demo

open Machine (Instruction)

structure Outcome where
  exitCode : UInt32 := 0
  stdout : String := ""
  stderr : List String := []
deriving DecidableEq, Repr

-- The argument and result registers of a frame.
def frameHeader (f : Frame) : String :=
  let args := ", ".intercalate (f.arguments.map fun r => r.name?.getD "?")
  let result := (f.result.bind Register.name?).getD "-"
  s!"{f.name}: args [{args}] rv {result}"

def instructionLine (i : Instruction) : String :=
  if i.isLabel then i.text else "    " ++ i.text

def frameText (f : Frame) (code : List Instruction) : String :=
  String.join ((frameHeader f :: code.map instructionLine).map (· ++ "\n"))

-- What a compilation shows, as far as it came.
def transcript (e : Emit) (c : Compilation) : String :=
  let ir := if e.showsIr then (c.module.map Ssa.Module.text).getD "" else ""
  let frames := String.join (c.functions.map fun (f, code) => frameText f code)
  let size := (c.bytes.map fun bytes => s!"encoded {bytes.length} bytes\n").getD ""
  ir ++ frames ++ size

-- The log level for a number of verbosity flags.
def logLevel : Nat → Level
  | 0 => .warn
  | 1 => .debug
  | _ => .trace

def Options.run (o : Options) : Outcome :=
  let emit := o.emit.getD .all
  let options : Lowering.Options := { verify := !o.noVerify, print := 0 < o.verbosity }
  let work : Compilation.Compile Unit :=
    if emit.showsFrames then Compilation.compile options {} sample
    else discard (Compilation.lower options sample)
  let log (c : Compilation) := (c.journal.log (logLevel o.verbosity)).map fun (level, line) =>
    s!"[{level.name}] {line}"
  match work {} with
  | .ok _ c =>
    { stdout := transcript emit c ++ c.journal.statistics.report ++ "\n", stderr := log c }
  | .error e c =>
    { exitCode := 1, stdout := transcript emit c, stderr := log c ++ [s!"error: {e.message}"] }

def versionText : String :=
  "tpde-wasm-demo 0.1.0"

def helpText : String :=
  "Usage: [--emit <ir|frame|all>] [--no-verify] [-v|--verbose] [-V|--version] [-h|--help]"

-- Answers a command line.
def respond (args : List String) : Outcome :=
  match Request.ofArguments args with
  | .run o => o.run
  | .version => { stdout := versionText ++ "\n" }
  | .help => { stdout := helpText ++ "\n" }
  | .usageError reason => { exitCode := 2, stderr := [s!"error: {reason}"] }

end StackCompiler.Demo
