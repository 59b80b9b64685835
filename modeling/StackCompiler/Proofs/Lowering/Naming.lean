import StackCompiler.Proofs.Lowering.Output
import StackCompiler.Proofs.Simulation.Course

-- Calls are linked by name. Which function a name leads to, and when it is the one that was meant.

namespace StackCompiler

theorem idxOf?_eq_some_iff {names : List String} {name : String} {index : Nat} :
    names.idxOf? name = some index ↔
      names[index]? = some name ∧ ∀ k < index, names[k]? ≠ some name := by
  rw [List.idxOf?, List.findIdx?_eq_some_iff_getElem]
  constructor
  case mp =>
    rintro ⟨hi, hn, hf⟩
    refine ⟨by simpa [hi] using hn, fun k hk => ?_⟩
    have hk' : k < names.length := by omega
    simpa [hk'] using hf k hk
  case mpr =>
    rintro ⟨hn, hf⟩
    obtain ⟨hi, hn⟩ := List.getElem?_eq_some_iff.mp hn
    refine ⟨hi, by simp [hn], fun k hk => ?_⟩
    have hk' : k < names.length := by omega
    simpa [hk'] using hf k hk

def Ssa.Op.call? : Op → Option Call
  | call c => some c
  | _ => none

namespace Ssa.Module

variable {m : Module} {name : String}

-- The index of the function that a name leads to. Externals count first, but a function that is
-- defined in the module is found first.
def resolve (m : Module) (name : String) : Option Nat :=
  match m.functions.findIdx? (·.name == name) with
  | some k => some (m.externals.length + k)
  | none => m.externals.findIdx? (·.name == name)

end Ssa.Module

namespace Bytecode.Module

open Lowering (Callee Options)
open Lowering.Direct
open Ssa (Function)

variable {m : Module} {options : Options} {j j' : Journal} {module : Ssa.Module} {f : Function}
variable {index k : Nat}

def bodyNames (m : Module) : List String :=
  (List.range m.bodies.length).map fun k => m.functionName (m.imports.length + k)

-- The name of a function leads to it and to no other one.
structure Linked (m : Module) (index : Nat) : Prop where
  -- An import goes by its own name, whatever it is exported as.
  imported : ∀ i, m.imports[index]? = some i → i.name = m.functionName index
  -- No body that is looked at before has the same name.
  unshadowed : ∀ k < m.bodies.length,
    index < m.imports.length ∨ m.imports.length + k < index →
      m.functionName (m.imports.length + k) ≠ m.functionName index

theorem name_of_lower (h : m.lower options j = .ok module j') (hf : module.functions[k]? = some f) :
    f.name = m.functionName (m.imports.length + k) := by
  obtain ⟨_, _, _, hl⟩ := lowered_of_lower h
  obtain ⟨own, _, _, ho, l, he⟩ := hl k f hf
  obtain ⟨_, _, ho⟩ := Option.map_eq_some_iff.mp ho
  have hn : f.name = own.name := he ▸ l.name_eq
  rw [hn, ← ho]

theorem map_name_of_lower (h : m.lower options j = .ok module j') :
    module.functions.map Function.name = m.bodyNames := by
  obtain ⟨_, _, hl, _⟩ := lowered_of_lower h
  refine List.ext_getElem (by simp [bodyNames, hl]) fun k hk _ => ?_
  have hk : k < module.functions.length := by simpa using hk
  simpa [bodyNames] using name_of_lower h (List.getElem?_eq_getElem hk)

-- A name is looked up among the bodies first, and then among the imports.
theorem resolve_eq (h : m.lower options j = .ok module j') (name : String) :
    module.resolve name = match m.bodyNames.idxOf? name with
      | some k => some (m.imports.length + k)
      | none => (m.imports.map Import.name).idxOf? name := by
  have hl := congrArg List.length (externals_of_lower h)
  simp only [List.length_map] at hl
  rw [← map_name_of_lower h, ← externals_of_lower h, Ssa.Module.resolve, hl]
  simp only [List.idxOf?, List.findIdx?_map]
  rfl

theorem getElem?_bodyNames_eq_some_iff {name : String} : m.bodyNames[k]? = some name ↔
    k < m.bodies.length ∧ m.functionName (m.imports.length + k) = name := by
  simp [bodyNames, List.getElem?_eq_some_iff]

section Resolve

variable {name : String} (h : m.lower options j = .ok module j')
include h

theorem resolve_eq_body_iff :
    module.resolve name = some (m.imports.length + k) ↔ m.bodyNames.idxOf? name = some k := by
  rw [resolve_eq h]
  split
  case h_1 hb => simp [hb]
  case h_2 hb =>
    refine iff_of_false (fun hi => ?_) (by simp [hb])
    obtain ⟨hi, _⟩ := List.getElem?_eq_some_iff.mp (idxOf?_eq_some_iff.mp hi).1
    simp only [List.length_map] at hi
    omega

theorem resolve_eq_import_iff (hi : index < m.imports.length) :
    module.resolve name = some index ↔
      name ∉ m.bodyNames ∧ (m.imports.map Import.name).idxOf? name = some index := by
  rw [resolve_eq h]
  split
  case h_1 k hb =>
    refine iff_of_false (fun he => ?_) fun ⟨hn, _⟩ => ?_
    · have : m.imports.length + k = index := Option.some.inj he
      omega
    · exact hn (List.mem_of_getElem? (idxOf?_eq_some_iff.mp hb).1)
  case h_2 hb => simp [List.idxOf?_eq_none_iff.mp hb]

-- The name by which a function is called leads to the function exactly if it is linked.
theorem resolve_functionName_iff (hn : (m.imports.map Import.name).Nodup)
    (hi : index < m.imports.length + m.bodies.length) :
    module.resolve (m.functionName index) = some index ↔ m.Linked index := by
  by_cases hlt : index < m.imports.length
  case pos =>
    rw [resolve_eq_import_iff h hlt, idxOf?_eq_some_iff]
    have hm : m.imports[index]? = some m.imports[index] := List.getElem?_eq_getElem hlt
    constructor
    case mp =>
      intro ⟨hb, hx, _⟩
      refine ⟨fun i he => by simpa [he] using hx, fun k hk _ he => hb ?_⟩
      exact List.mem_of_getElem? (getElem?_bodyNames_eq_some_iff.mpr ⟨hk, he⟩)
    case mpr =>
      intro hl
      have hx : (m.imports.map Import.name)[index]? = some (m.functionName index) := by
        simp [hm, hl.imported _ hm]
      refine ⟨fun hb => ?_, hx, fun k hk he => ?_⟩
      · obtain ⟨k, hk⟩ := List.mem_iff_getElem?.mp hb
        obtain ⟨hk, he⟩ := getElem?_bodyNames_eq_some_iff.mp hk
        exact hl.unshadowed k hk (.inl hlt) he
      · have hk' : k < (m.imports.map Import.name).length := by simp; omega
        exact absurd ((List.getElem?_inj hk' hn).mp (he.trans hx.symm)) (by omega)
  case neg =>
    obtain ⟨k, he⟩ := Nat.exists_eq_add_of_le (Nat.le_of_not_lt hlt)
    subst he
    rw [resolve_eq_body_iff h, idxOf?_eq_some_iff]
    have hk : k < m.bodies.length := by omega
    constructor
    case mp =>
      intro ⟨_, hf⟩
      refine ⟨fun i he => ?_, fun l hl hor he => hf l ?_ (getElem?_bodyNames_eq_some_iff.mpr ⟨hl, he⟩)⟩
      · obtain ⟨hi, _⟩ := List.getElem?_eq_some_iff.mp he
        omega
      · omega
    case mpr =>
      intro hl
      refine ⟨getElem?_bodyNames_eq_some_iff.mpr ⟨hk, rfl⟩, fun l hlt he => ?_⟩
      obtain ⟨hb, he⟩ := getElem?_bodyNames_eq_some_iff.mp he
      exact hl.unshadowed l hb (.inr (by omega)) he

end Resolve

-- A call reaches the function that the body calls exactly if that function is linked.
theorem lower_resolves_iff (h : m.lower options j = .ok module j')
    (hn : (m.imports.map Import.name).Nodup) (k : Nat) (f : Function)
    (hf : module.functions[k]? = some f) :
    ∃ body, m.bodies[k]? = some body ∧ module.externals.length = m.imports.length ∧
      f.callValues.Forall₂
        (fun v index => ∃ d call, f.value? v = some d ∧ d.op = .call call ∧
          (module.resolve call.callee = some index ↔ m.Linked index))
        (body.code.filterMap Instruction.callee?) := by
  obtain ⟨callees, hc, _, hl⟩ := lowered_of_lower h
  obtain ⟨own, body, hb, ho, l, he⟩ := hl k f hf
  refine ⟨body, hb, by simpa using congrArg List.length (externals_of_lower h), ?_⟩
  subst he
  refine l.finished.calls.imp fun v index hx => ?_
  obtain ⟨d, s, args, hd, hs, hop, _, _⟩ := callsFunction_of_lowersCall hc hx
  have hlt : index < m.imports.length + m.bodies.length := by
    obtain ⟨_, callee, _, _, hcallee, _⟩ := hx
    obtain ⟨hlt, _⟩ := List.getElem?_eq_some_iff.mp hcallee
    exact hc.length ▸ hlt
  exact ⟨d, _, hd, hop, resolve_functionName_iff h hn hlt⟩

-- A body that calls an import, in a module with these exports.
def importing (exports : List Export) : Module where
  types := [⟨[], []⟩]
  imports := [⟨"env", "f", .function 0⟩]
  bodies := [⟨0, [], [.call 0, .end_]⟩]
  exports := exports

-- The import keeps its name if only the body is exported.
theorem lower_resolves_iff_exported_body :
    ∃ module j' f, (importing [⟨"g", .function, 1⟩]).lower {} #[] = .ok module j' ∧
      module.functions[0]? = some f ∧ f.callValues.Forall₂
        (fun v index => ∃ d call, f.value? v = some d ∧ d.op = .call call ∧
          module.resolve call.callee = some index) [0] := by
  have h : (match (importing [⟨"g", .function, 1⟩]).lower {} #[] with
      | .ok module _ => module.functions[0]?.isSome
      | .error .. => false) = true := by decide +kernel
  split at h
  case h_2 => cases h
  case h_1 module j' hx =>
    obtain ⟨f, hf⟩ := Option.isSome_iff_exists.mp h
    obtain ⟨body, hb, _, hc⟩ := lower_resolves_iff hx (by decide) 0 f hf
    cases hb
    have hl : (importing [⟨"g", .function, 1⟩]).Linked 0 := by
      refine ⟨fun i hi => by cases hi; rfl, fun k hk _ => ?_⟩
      obtain rfl : k = 0 := by simpa [importing] using hk
      decide
    obtain ⟨v, rest, ⟨d, call, hd, ho, hiff⟩, hrest, he⟩ := List.forall₂_cons_right_iff.mp hc
    exact ⟨module, j', f, hx, hf, he ▸ .cons ⟨d, call, hd, ho, hiff.mpr hl⟩
      (List.forall₂_nil_right_iff.mp hrest ▸ .nil)⟩

-- An import that is exported under another name is called by that name, which leads nowhere.
theorem not_resolves_renamed_import :
    let m := importing [⟨"g", .function, 0⟩]
    (m.imports.map Import.name).Nodup ∧ (m.exports.map Export.name).Nodup ∧
      ∃ module j' f v d call, m.lower {} #[] = .ok module j' ∧ module.functions[0]? = some f ∧
        f.callValues = [v] ∧ f.value? v = some d ∧ d.op = .call call ∧
        module.resolve call.callee = none := by
  refine ⟨by decide, by decide, ?_⟩
  have h : (match (importing [⟨"g", .function, 0⟩]).lower {} #[] with
      | .ok module _ => module.functions[0]?.any fun f => f.callValues.any fun v =>
          (f.value? v).any fun d => d.op.call?.any fun call =>
            f.callValues == [v] && module.resolve call.callee == none
      | .error .. => false) = true := by decide +kernel
  split at h
  case h_2 => cases h
  case h_1 module j' hx =>
    obtain ⟨f, hf, h⟩ := Option.any_eq_true _ _ |>.mp h
    obtain ⟨v, hv, h⟩ := List.any_eq_true.mp h
    obtain ⟨d, hd, h⟩ := Option.any_eq_true _ _ |>.mp h
    obtain ⟨call, hcall, h⟩ := Option.any_eq_true _ _ |>.mp h
    have ho : d.op = .call call := by
      cases hop : d.op <;> simp_all [Ssa.Op.call?]
    obtain ⟨hc, hr⟩ : f.callValues = [v] ∧ module.resolve call.callee = none := by simpa using h
    exact ⟨module, j', f, v, d, call, hx, hf, hc, hd, ho, hr⟩

end Bytecode.Module

end StackCompiler
