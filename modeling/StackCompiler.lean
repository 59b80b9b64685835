import StackCompiler.Main
import StackCompiler.Proofs.Frame.CalleeSave
import StackCompiler.Proofs.Lowering.Naming
import StackCompiler.Proofs.Simulation.Refinement
import StackCompiler.Ssa.Builder
import StackCompiler.Proofs.Convention.Capacity
import StackCompiler.Proofs.Frame.CallerSave
import StackCompiler.Proofs.Machine.Layout
import StackCompiler.Proofs.Machine.Linking
import StackCompiler.Proofs.Convention.Agreement
import StackCompiler.Proofs.Typing.Acceptance
import StackCompiler.Proofs.Typing.Completeness
import StackCompiler.Proofs.DeadCode.Renaming
import StackCompiler.Proofs.DeadCode.Idle
import StackCompiler.Proofs.DeadCode.Control
import StackCompiler.Proofs.DeadCode.Removal
import StackCompiler.Proofs.Convention.Delivery
import StackCompiler.Proofs.Ssa.Verification
import StackCompiler.Proofs.DeadCode.Exactness
import StackCompiler.Proofs.Ssa.Pruning
import StackCompiler.Proofs.Register.History
import StackCompiler.Proofs.Register.Refinement
import StackCompiler.Proofs.Typing.Bracketing
import StackCompiler.Proofs.Slots.Variables
import StackCompiler.Proofs.Convention.SystemV
import StackCompiler.Proofs.Machine.Resolution
import StackCompiler.Proofs.Frame.Pool
import StackCompiler.Proofs.Ssa.Representation
import StackCompiler.Proofs.Ssa.Search
import StackCompiler.Proofs.Lowering.Bases
import StackCompiler.Proofs.Lowering.Labels
import StackCompiler.Proofs.Journal.Session
