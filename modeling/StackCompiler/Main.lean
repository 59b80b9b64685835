import StackCompiler.Demo.Session

-- The command line of the demo.

open StackCompiler

def main (args : List String) : IO UInt32 := do
  let outcome := Demo.respond args
  for line in outcome.stderr do
    IO.eprintln line
  IO.print outcome.stdout
  return outcome.exitCode
