import StackCompiler.Proofs.Lowering.Direct.Equivalence
import StackCompiler.Proofs.Lowering.Function

-- Whole modules: every function of the result was lowered from the body in its place, and the errors
-- are those that stack code can cause.

namespace StackCompiler

namespace Bytecode

-- Function `index` as a call sees it.
def Module.callee? (m : Module) (index : Nat) : Option Lowering.Callee :=
  (m.signature? index).map fun s => ⟨m.functionName index, s⟩

end Bytecode

namespace Lowering.Direct

open Bytecode (Signature)
open Ssa (Function)

variable {s : State} {m : Bytecode.Module} {options : Options}

-- A list of computations that each meet a condition, whatever was done before.
theorem meets_mapM {l : List α} {g : α → Lower β} {R : α → β → Prop}
    (h : ∀ a ∈ l, ∀ s, Meets (g a) s fun b _ => R a b) :
    Meets (l.mapM g) s fun bs _ => l.Forall₂ R bs := by
  induction l generalizing s
  case nil => exact .nil
  case cons a l hi =>
    simp only [List.mapM_cons, meets_bind, meets_pure]
    refine (h a (by simp) s).mono fun b t hb => ?_
    exact (hi fun a ha => h a (by simp [ha])).mono fun bs _ hbs => .cons hb hbs

theorem meets_forM {l : List α} {g : α → Lower Unit}
    (h : ∀ a ∈ l, ∀ s, Meets (g a) s fun _ _ => True) : Meets (l.forM g) s fun _ _ => True := by
  induction l generalizing s
  case nil => trivial
  case cons a l hi =>
    simp only [List.forM_eq_forM, List.forM_cons, meets_bind]
    exact (h a (by simp) s).mono fun _ _ _ => hi fun a ha => h a (by simp [ha])

theorem signature_eq_ok_iff {index : Nat} {sig : Signature} :
    m.signature index = .ok sig ↔ m.types[index]? = some sig := by
  unfold Bytecode.Module.signature
  split <;> simp_all

theorem benign_of_signature {index : Nat} {e : CompileError} (h : m.signature index = .error e) :
    e.Benign := by
  simp only [Bytecode.Module.signature] at h
  split at h <;> cases h
  trivial

theorem benign_of_external {i : Bytecode.Import} {e : CompileError} (h : m.external i = .error e) :
    e.Benign := by
  simp only [Bytecode.Module.external] at h
  split at h
  case h_2 => cases h; trivial
  case h_1 type _ =>
    cases hs : m.signature type <;> simp only [hs, bind, Except.bind] at h
    case error => cases h; exact benign_of_signature hs
    case ok sig =>
      cases hr : sig.result <;> simp only [hr] at h <;> cases h
      exact benign_of_signature_result hr

theorem type?_of_external {i : Bytecode.Import} {x : Ssa.External × Signature}
    (h : m.external i = .ok x) :
    ∃ type, i.type? = some type ∧ m.types[type]? = some x.2 ∧ x.1.name = i.name := by
  simp only [Bytecode.Module.external] at h
  split at h
  case h_2 => cases h
  case h_1 type hi =>
    cases hs : m.signature type <;> simp only [hs, bind, Except.bind] at h
    case error => cases h
    case ok sig =>
      cases hr : sig.result <;> simp only [hr] at h <;> cases h
      exact ⟨type, by simp [Bytecode.Import.type?, hi], signature_eq_ok_iff.mp hs, rfl⟩

theorem benign_of_toVariable {g : Bytecode.Global} {index : Nat} {e : CompileError}
    (h : g.toVariable index = .error e) : e.Benign := by
  simp only [Bytecode.Global.toVariable] at h
  split at h <;> cases h
  trivial

theorem map_import_types {l : List Bytecode.Import} {xs : List (Ssa.External × Signature)}
    (h : l.Forall₂ (fun i x => m.external i = .ok x) xs) :
    (l.filterMap Bytecode.Import.type?).map (m.types[·]?) = (xs.map Prod.snd).map some := by
  induction h
  case nil => rfl
  case cons hx _ hi =>
    have ⟨type, ht, hs, _⟩ := type?_of_external hx
    simpa [ht, hs] using hi

-- An external is called like its import.
theorem map_import_names {l : List Bytecode.Import} {xs : List (Ssa.External × Signature)}
    (h : l.Forall₂ (fun i x => m.external i = .ok x) xs) :
    (xs.map Prod.fst).map Ssa.External.name = l.map Bytecode.Import.name := by
  induction h
  case nil => rfl
  case cons hx _ hi =>
    have ⟨_, _, _, hn⟩ := type?_of_external hx
    simpa [hn] using hi

theorem map_body_types {l : List Bytecode.Body} {xs : List Signature}
    (h : l.Forall₂ (fun body s => m.signature body.type = .ok s) xs) :
    (l.map Bytecode.Body.type).map (m.types[·]?) = xs.map some := by
  induction h
  case nil => rfl
  case cons hs _ hi => simpa [signature_eq_ok_iff.mp hs] using hi

-- What the bodies can call is numbered like the functions of the module.
theorem getElem?_callees {imports : List (Ssa.External × Signature)} {own : List Signature}
    (hi : m.imports.Forall₂ (fun i x => m.external i = .ok x) imports)
    (ho : m.bodies.Forall₂ (fun body s => m.signature body.type = .ok s) own) (index : Nat) :
    ((imports.map Prod.snd ++ own).zipIdx.map fun (s, i) => (⟨m.functionName i, s⟩ : Callee))[index]? =
      m.callee? index := by
  let types := m.imports.filterMap Bytecode.Import.type? ++ m.bodies.map Bytecode.Body.type
  have hm : types.map (m.types[·]?) = (imports.map Prod.snd ++ own).map some := by
    simp only [types, List.map_append, map_import_types hi, map_body_types ho]
  have hx : types[index]?.map (m.types[·]?) = (imports.map Prod.snd ++ own)[index]?.map some := by
    simpa only [List.getElem?_map] using congrArg (·[index]?) hm
  have hs : m.signature? index = (imports.map Prod.snd ++ own)[index]? := by
    change types[index]?.bind (m.types[·]?) = _
    cases ht : types[index]? <;> cases ho : (imports.map Prod.snd ++ own)[index]? <;>
      simp_all
  rw [Bytecode.Module.callee?, hs, List.getElem?_map, List.getElem?_zipIdx]
  simp only [Option.map_map, Nat.zero_add]
  rfl

section Options

variable {globals : List GlobalSlot} {callees : List Callee} {own : Callee} {body : Bytecode.Body}

-- It does not matter whether a function is checked that passes.
theorem report_eq {f : Function} (hv : f.verify = .ok ()) :
    report options f = report { options with verify := false } f := by
  have ho : ofExcept (.ok () : Except CompileError Unit) = (pure () : Lower Unit) := rfl
  cases hc : options.verify <;> simp [report, inspect, hv, ho, hc]

theorem report_meets {f : Function} (hv : f.verify = .ok ()) :
    Meets (report options f) s fun _ _ => True := by
  rw [report_eq hv]
  simp [report, inspect, meets_ite]

theorem lowerFunction_meets : Meets (lowerFunction options globals callees own body) s fun f _ =>
    ∃ l : Lowered globals callees own body, f = l.last.function.trimmed := by
  simp only [lowerFunction, meets_bind]
  refine translate_meets.mono fun f t h => ?_
  obtain ⟨l, hf⟩ := h
  have hv : f.verify = .ok () := hf ▸ Function.verify_eq_ok l.finished.complete
  exact (report_meets hv).mono fun _ _ _ => ⟨l, hf⟩

theorem lowerFunction_eq (options : Options) :
    lowerFunction options globals callees own body =
      lowerFunction { options with verify := false } globals callees own body := by
  funext s
  simp only [lowerFunction, bind, EStateM.bind]
  cases hx : translate globals callees own body s
  case error => rfl
  case ok f t =>
    have ⟨l, hf⟩ := translate_meets.of_ok hx
    have hv : f.verify = .ok () := hf ▸ Function.verify_eq_ok l.finished.complete
    simp only [report_eq hv]

theorem lowerModule_eq (options : Options) :
    lowerModule options m = lowerModule { options with verify := false } m := by
  simp only [lowerModule, lowerBodies, lowerFunction_eq options]

end Options

-- What the bodies of a module can call.
structure Numbered (m : Bytecode.Module) (callees : List Callee) : Prop where
  length : callees.length = m.imports.length + m.bodies.length
  getElem? : ∀ index, callees[index]? = m.callee? index

theorem lowerModule_meets : Meets (lowerModule options m) s fun module _ => ∃ callees,
    Numbered m callees ∧ ((callees.drop m.imports.length).zip m.bodies).Forall₂
      (fun x f => ∃ l : Lowered m.globalSlots callees x.1 x.2, f = l.last.function.trimmed)
      module.functions ∧
    module.externals.map Ssa.External.name = m.imports.map Bytecode.Import.name := by
  simp only [lowerModule, survey, meets_bind]
  refine meets_ofExcept (fun imports hi => ?_) fun e he => ?_
  case refine_2 =>
    obtain ⟨_, _, he⟩ := exists_of_mapM_eq_error he
    exact benign_of_external he
  have hx : Meets (m.exports.forM noteExport) s fun _ _ => True :=
    meets_forM fun e _ s => by simp [noteExport, meets_ite]
  refine hx.mono fun _ t _ => meets_ofExcept (fun globals _ => ?_) fun e he => ?_
  case refine_2 =>
    obtain ⟨_, _, he⟩ := exists_of_mapM_eq_error he
    exact benign_of_toVariable he
  refine meets_ofExcept (fun own ho => ?_) fun e he => ?_
  case refine_2 =>
    obtain ⟨_, _, he⟩ := exists_of_mapM_eq_error he
    exact benign_of_signature he
  have hi := forall₂_of_mapM_eq_ok hi
  have ho := forall₂_of_mapM_eq_ok ho
  refine (meets_mapM fun x _ s => lowerFunction_meets).mono fun functions _ hf => ?_
  dsimp only at hf
  rw [List.length_map] at hf
  refine ⟨_, ⟨?_, getElem?_callees hi ho⟩, hi.length_eq ▸ hf, map_import_names hi⟩
  simp [← hi.length_eq, ← ho.length_eq]

end Lowering.Direct

namespace Bytecode.Module

open Lowering (Options lower_eq_direct)
open Lowering.Direct

variable {m : Module} {options : Options} {j j' : Journal}

theorem lower_eq (options : Options) : m.lower options = m.lower { options with verify := false } := by
  funext j
  rw [lower_eq_direct, lower_eq_direct, lowerModule_eq options]

theorem benign_of_lower {e : CompileError} (h : m.lower options j = .error e j') : e.Benign := by
  rw [lower_eq_direct] at h
  split at h
  case h_1 => cases h
  case h_2 hx => cases h; exact lowerModule_meets.benign hx

-- The function in each place was lowered from the body in that place.
theorem lowered_of_lower {module : Ssa.Module} (h : m.lower options j = .ok module j') :
    ∃ callees, Numbered m callees ∧ module.functions.length = m.bodies.length ∧
      ∀ k f, module.functions[k]? = some f → ∃ own body, m.bodies[k]? = some body ∧
        m.callee? (m.imports.length + k) = some own ∧
        ∃ l : Lowered m.globalSlots callees own body, f = l.last.function.trimmed := by
  rw [lower_eq_direct] at h
  split at h
  case h_2 => cases h
  case h_1 hx =>
    cases h
    have ⟨callees, hn, hf, _⟩ := lowerModule_meets.of_ok hx
    have hl : module.functions.length = m.bodies.length := by
      simp [← hf.length_eq, hn.length]
    refine ⟨callees, hn, hl, fun k f hk => ?_⟩
    have ⟨hlt, hk⟩ := List.getElem?_eq_some_iff.mp hk
    have hb : k < m.bodies.length := hl ▸ hlt
    have hc : m.imports.length + k < callees.length := by simp [hn.length, hb]
    refine ⟨callees[m.imports.length + k], m.bodies[k], by simp, ?_, ?_⟩
    · rw [← hn.getElem?, List.getElem?_eq_getElem hc]
    · have hz : k < ((callees.drop m.imports.length).zip m.bodies).length := hf.length_eq ▸ hlt
      have hx := hf.get hz hlt
      rw [List.get_eq_getElem, List.get_eq_getElem, List.getElem_zip, List.getElem_drop, hk] at hx
      exact hx

theorem externals_of_lower {module : Ssa.Module} (h : m.lower options j = .ok module j') :
    module.externals.map Ssa.External.name = m.imports.map Import.name := by
  rw [lower_eq_direct] at h
  split at h
  case h_2 => cases h
  case h_1 hx =>
    cases h
    have ⟨_, _, _, he⟩ := lowerModule_meets.of_ok hx
    exact he

end Bytecode.Module

end StackCompiler
