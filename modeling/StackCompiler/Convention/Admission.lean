import StackCompiler.Convention.Assignment
import StackCompiler.Journal.Basic

-- Admission of signatures by the calling convention.

namespace StackCompiler.Convention

-- Refuses a signature whose arguments do not fit the registers, and notes on whose account.
def accept (subject : String) (types : List Scalar) : Journaled CompileError Unit :=
  match assign types with
  | .ok _ => pure ()
  | .error cause => do
    Journaled.note (.signatureRejected subject cause)
    throw (.overflow cause)

end StackCompiler.Convention
