import StackCompiler.Proofs.Lowering.Module
import StackCompiler.Proofs.Ssa.Soundness

-- What is known of the result of lowering, whatever the module: lowering does not trip over its own
-- output, operands dominate their uses, and the code is well typed.

namespace StackCompiler.Bytecode.Module

open Lowering (Callee Options)
open Lowering.Direct
open Ssa (BlockId Function Op ValueDef ValueId)

variable {m : Module} {options : Options} {j j' : Journal} {module : Ssa.Module} {f : Function}

-- Every function comes from a finished one.
theorem finished_of_mem (h : m.lower options j = .ok module j') (hf : f ∈ module.functions) :
    ∃ g dom, Function.Complete g dom ∧ f = g.trimmed := by
  obtain ⟨_, _, _, hl⟩ := lowered_of_lower h
  obtain ⟨k, hk, he⟩ := List.getElem_of_mem hf
  obtain ⟨_, _, _, _, l, hf⟩ := hl k f (by simp [hk, he])
  exact ⟨_, _, l.finished.complete, hf⟩

-- Whether or not functions are checked, the answer is the same. A function that is finished passes
-- the check and leads only to its own blocks. No error tells of a broken rule of construction: one
-- function is open at a time and code goes to a block of it, each function that is called has a name,
-- and no number leads nowhere. Only a region with a result can be closed with more or less than that.
theorem lower_passes_checks (m : Module) (options : Options) (j : Journal) :
    m.lower { options with verify := true } j = m.lower { options with verify := false } j ∧
    (∀ module j', m.lower options j = .ok module j' → ∀ f ∈ module.functions,
      f.verify = .ok () ∧
      ∀ b ∈ f.layout, ∀ v d, (v, d) ∈ f.instructions b → ∀ t ∈ d.op.successors, t ∈ f.layout) ∧
    (∀ e j', m.lower options j = .error e j' →
      (∀ cause, e = .invariant cause → ∃ count, count ≠ 1 ∧ cause = .regionOperands count) ∧
      ∀ cause, e ≠ .dangling cause) := by
  refine ⟨by rw [lower_eq], fun module j' h f hf => ?_, fun e j' h => ?_⟩
  case refine_1 =>
    obtain ⟨g, dom, hg, he⟩ := finished_of_mem h hf
    subst he
    refine ⟨Function.verify_eq_ok hg, fun b hb v d hd t ht => ?_⟩
    obtain ⟨hv, hd⟩ := Function.mem_instructions_iff.mp hd
    exact hg.leads_to_layout hb hv hd ht
  case refine_2 =>
    have hb := benign_of_lower h
    refine ⟨fun cause hc => ?_, fun cause hc => (hc ▸ hb : CompileError.Benign (.dangling cause))⟩
    subst hc
    cases cause
    case regionOperands count => exact ⟨count, hb, rfl⟩
    all_goals exact hb.elim

-- A table of functions in general can lack a name.
example : Lowering.Space.callee { signatures := [⟨[], []⟩], names := [(1, "f")] } 0 =
    .error (.invariant (.unnamedFunction 0)) := by
  decide

-- A region that has a result closes without one.
example :
    let code := [.block (.value .i32), .end_, .end_]
    let m : Module := { types := [⟨[], []⟩], bodies := [⟨0, [], code⟩] }
    (match m.lower {} #[] with
      | .ok .. => none
      | .error e _ => some e) = some (.invariant (.regionOperands 0)) := by
  decide +kernel

-- A function that calls itself in one of two branches that join in a phi.
def choice : Module where
  types := [⟨[.i32], [.i32]⟩]
  bodies := [{
    type := 0
    locals := []
    code := [.localGet 0, .if_ (.value .i32), .localGet 0, .call 0, .else_, .const (.i32 1), .end_, .end_] }]

theorem exists_choice : ∃ module j' f, choice.lower {} #[] = .ok module j' ∧
    module.functions[0]? = some f ∧ ∃ b ∈ f.layout, ∃ v, v ∈ f.phis b := by
  have h : (match choice.lower {} #[] with
      | .ok module _ => module.functions[0]?.any fun f => f.layout.any fun b => !(f.phis b).isEmpty
      | .error .. => false) = true := by decide +kernel
  split at h
  case h_2 => cases h
  case h_1 module j' hx =>
    obtain ⟨f, hf, h⟩ := Option.any_eq_true _ _ |>.mp h
    obtain ⟨b, hb, h⟩ := List.any_eq_true.mp h
    exact ⟨module, j', f, hx, hf, b, hb, List.exists_mem_of_ne_nil _ (by simpa using h)⟩

-- Operands dominate their uses.
theorem lower_dominated (h : m.lower options j = .ok module j') (f : Function)
    (hf : f ∈ module.functions) (b : BlockId) (hb : b ∈ f.layout) (v : ValueId) (d : ValueDef)
    (hd : (v, d) ∈ f.instructions b) : f.Dominated b v d.op := by
  obtain ⟨g, dom, hg, he⟩ := finished_of_mem h hf
  subst he
  obtain ⟨hv, hd⟩ := Function.mem_instructions_iff.mp hd
  exact hg.dominated hb hv hd

theorem lower_dominated_choice : ∃ module j' f, choice.lower {} #[] = .ok module j' ∧
    f ∈ module.functions ∧ ∃ b ∈ f.layout, ∃ v d, (v, d) ∈ f.instructions b ∧ d.op.isPhi = true ∧
      f.Dominated b v d.op := by
  obtain ⟨module, j', f, h, hf, b, hb, v, hv⟩ := exists_choice
  obtain ⟨d, hv, hd, hp⟩ := Function.exists_of_mem_phis hv
  have hd := Function.mem_instructions_iff.mpr ⟨hv, hd⟩
  have hf := List.mem_of_getElem? hf
  exact ⟨module, j', f, h, hf, b, hb, v, d, hd, hp, lower_dominated h f hf b hb v d hd⟩

-- Value `v` calls function `index` of the module, with arguments and a result as the function's
-- signature says.
def CallsFunction (m : Module) (f : Function) (v : ValueId) (index : Nat) : Prop :=
  ∃ d s args, f.value? v = some d ∧ m.signature? index = some s ∧
    d.op = .call ⟨m.functionName index, args, d.type⟩ ∧ s.result = .ok d.type ∧
    List.Forall₂ f.HasType args s.paramTypes

theorem callsFunction_of_lowersCall {callees : List Callee} {v : ValueId} {index : Nat}
    (hn : Numbered m callees) (h : LowersCall callees f v index) : m.CallsFunction f v index := by
  obtain ⟨d, callee, args, hd, hc, hop, hr, ha, _⟩ := h
  rw [hn.getElem?, callee?, Option.map_eq_some_iff] at hc
  obtain ⟨s, hs, he⟩ := hc
  subst he
  exact ⟨d, s, args, hd, hs, hop, hr, ha⟩

-- The instructions of a function are well typed, and its calls are those of the body in its place,
-- in the same order.
theorem lower_wellTyped (h : m.lower options j = .ok module j') (k : Nat) (f : Function)
    (hf : module.functions[k]? = some f) :
    ∃ body s, m.bodies[k]? = some body ∧ m.signature? (m.imports.length + k) = some s ∧
      s.result = .ok f.result ∧
      (∀ b ∈ f.layout, ∀ v d, (v, d) ∈ f.instructions b → f.WellTyped d.type d.op) ∧
      f.callValues.Forall₂ (m.CallsFunction f) (body.code.filterMap Instruction.callee?) := by
  obtain ⟨callees, hn, _, hl⟩ := lowered_of_lower h
  obtain ⟨own, body, hb, ho, l, he⟩ := hl k f hf
  subst he
  obtain ⟨s, hs, ho⟩ := Option.map_eq_some_iff.mp ho
  have hfin := l.finished
  refine ⟨body, s, hb, hs, ?result, fun b hb v d hd => ?typed, ?calls⟩
  case result =>
    have hr : l.last.function.trimmed.result = l.result := hfin.result
    rw [hr, ← l.result_eq, ← ho]
  case typed =>
    obtain ⟨hv, hd⟩ := Function.mem_instructions_iff.mp hd
    exact hfin.complete.wellTyped hb hv hd
  case calls => exact hfin.calls.imp fun _ _ => callsFunction_of_lowersCall hn

theorem lower_wellTyped_choice : ∃ module j' f, choice.lower {} #[] = .ok module j' ∧
    module.functions[0]? = some f ∧ f.callValues.Forall₂ (choice.CallsFunction f) [0] ∧
    ∃ b ∈ f.layout, ∃ v d, (v, d) ∈ f.instructions b ∧ d.op.isPhi = true ∧
      f.WellTyped d.type d.op := by
  obtain ⟨module, j', f, h, hf, b, hb, v, hv⟩ := exists_choice
  obtain ⟨d, hv, hd, hp⟩ := Function.exists_of_mem_phis hv
  have hd := Function.mem_instructions_iff.mpr ⟨hv, hd⟩
  obtain ⟨body, s, hbody, _, _, ht, hc⟩ := lower_wellTyped h 0 f hf
  cases hbody
  exact ⟨module, j', f, h, hf, hc, b, hb, v, d, hd, hp, ht b hb v d hd⟩

end StackCompiler.Bytecode.Module
