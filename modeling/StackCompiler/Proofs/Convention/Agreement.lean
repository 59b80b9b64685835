import StackCompiler.Codegen
import StackCompiler.Proofs.Lowering.Declaration
import StackCompiler.Proofs.Lowering.Naming

-- Callers put arguments where the callee looks for them, and take the result from where it leaves
-- it. A signature that does not fit the registers is found when it is lowered.

namespace StackCompiler

namespace Ssa.Function

variable {f : Function} {types : List Scalar} {vs : List ValueId}

-- The types of values, if they all have one.
def typesOf (f : Function) (vs : List ValueId) : Option (List Scalar) :=
  vs.mapM fun v => (f.value? v).bind ValueDef.type

-- The frame that the function's own parameters and result ask for.
def frame (f : Function) : Except CompileError Frame :=
  Frame.ofSignature f.name (f.typedParams.map Prod.snd) f.result

theorem type_of_hasType {v : ValueId} {t : Scalar} (h : f.HasType v t) :
    (f.value? v).bind ValueDef.type = some t := by
  obtain ⟨d, hd, ht⟩ := h
  rw [hd, Option.bind_some, ht]

theorem typesOf_eq (h : List.Forall₂ f.HasType vs types) : f.typesOf vs = some types := by
  induction h
  case nil => rfl
  case cons ht _ hi =>
    rw [typesOf] at hi
    rw [typesOf, List.mapM_cons, type_of_hasType ht, hi]
    rfl

theorem typedParams_eq (h : List.Forall₂ f.HasType f.params types) :
    f.typedParams = f.params.zip types := by
  rw [typedParams]
  generalize f.params = params at h
  induction h
  case nil => rfl
  case cons ht _ hi => rw [List.filterMap_cons, type_of_hasType ht, hi]; rfl

end Ssa.Function

namespace Convention

theorem length_of_go {all types : List Scalar} {a : Assigner} {regs : List Register}
    (h : assign.go all a types = .ok regs) : regs.length = types.length := by
  induction types generalizing a regs
  case nil =>
    cases h
    rfl
  case cons type types hi =>
    rw [assign.go] at h
    split at h
    case h_1 => cases h
    case h_2 r b _ =>
      cases hg : assign.go all b types <;> rw [hg] at h <;> cases h
      rw [List.length_cons, List.length_cons, hi hg]

-- Every argument has a register.
theorem length_of_assign {types : List Scalar} {regs : List Register} (h : assign types = .ok regs) :
    regs.length = types.length :=
  length_of_go h

end Convention

-- A signature whose arguments fit the registers has a frame.
theorem Frame.exists_ofSignature {types : List Scalar} {regs : List Register} (name : String)
    (result : Option Scalar) (h : Convention.assign types = .ok regs) :
    ∃ frame, ofSignature name types result = .ok frame ∧ frame.arguments = regs ∧
      frame.result = result.map Convention.resultRegister := by
  rw [ofSignature, h]
  exact ⟨_, rfl, rfl, rfl⟩

namespace Lowering.Direct

open Ssa (Function ValueId)

variable {cx : Context} {dom : Ssa.Scope} {calls : List Nat} {s t : State}

-- The parameters of a function are those of its signature, in the same order.
theorem declareParams_typed {index : Nat} {types : List Scalar} (hv : s.Valid cx dom calls)
    (he : s.function.entry = some s.block) (hr : s.regions = []) :
    Meets (declareParams index types) s fun _ t => ∃ params,
      t.function.params = s.function.params ++ params ∧
      List.Forall₂ t.function.HasType params types := by
  induction types generalizing s index
  case nil => exact ⟨[], by simp, .nil⟩
  case cons type types hi =>
    simp only [declareParams, meets_bind, meets_get, meets_set, meets_pure]
    let u := s.addParam ("param" ++ toString index) type
    have hu : Inside cx dom calls s u := ⟨hv.addParam hr, s.advances_addParam hv.draft.wf⟩
    refine (allocLocal_meets (s := u) hu.valid he).eq_ok.mono fun v s₁ h => ?_
    obtain ⟨hx₁, h₁, _, ha⟩ := h
    have hp : s₁.function.Usable dom s₁.block s.function.freshValue type :=
      h₁.advances.usable s.usable_addParam
    refine (perform_meets h₁.valid ⟨rfl, rfl, rfl⟩ (.store hp ha)).eq_ok.mono fun _ s₂ h => ?_
    obtain ⟨hx₂, h₂⟩ := h
    have hdecl : s₂.function.declaration = u.function.declaration :=
      ((perform_relates rfl rfl).declaration_eq hx₂).trans (allocLocal_relates.declaration_eq hx₁)
    have hparams : s₂.function.params = s.function.params ++ [s.function.freshValue] :=
      congrArg Ssa.Declaration.params hdecl
    have hp : s₂.function.HasType s.function.freshValue type :=
      h₂.advances.grows.keeps.hasType hp.hasType
    have h₂ := hu.trans (h₁.trans h₂)
    have he : s₂.function.entry = some s₂.block := h₂.advances.entry ▸ h₂.advances.block ▸ he
    have hr := h₂.advances.regions.trans hr
    refine ((hi h₂.valid he hr).and (declareParams_meets h₂.valid he hr)).mono fun _ t h => ?_
    obtain ⟨⟨params, hps, ht⟩, hd⟩ := h
    refine ⟨s.function.freshValue :: params, by simp [hps, hparams], .cons ?_ ht⟩
    exact hd.inside.advances.grows.keeps.hasType hp

theorem State.Concludes.declaration (h : s.Concludes cx t) :
    t.function.declaration = s.function.declaration := by
  cases h
  case dead => rfl
  case live u op hd hret => rcases hret.popped with rfl | ⟨_, _, _, _, rfl⟩ <;> rfl

section Lowered

variable {globals : List GlobalSlot} {callees : List Callee} {own : Callee} {body : Bytecode.Body}

theorem Lowered.declaration_ready (l : Lowered globals callees own body) :
    l.last.function.declaration = l.ready.function.declaration :=
  l.concludes.declaration.trans ((lowerCode_relates fun _ _ => rfl).declaration_eq l.lowerCode_eq)

theorem Lowered.declaration_eq (l : Lowered globals callees own body) :
    l.last.function.declaration = l.declared.function.declaration :=
  l.declaration_ready.trans (declareLocals_relates.declaration_eq l.declareLocals_eq)

theorem Lowered.typed_params (l : Lowered globals callees own body) :
    List.Forall₂ l.last.function.HasType l.last.function.params own.signature.paramTypes := by
  have hv : (l.origin.blank own.name l.result).Valid ⟨globals, callees, [], l.result⟩ _ [] :=
    l.origin.valid_blank
  obtain ⟨params, hp, ht⟩ := (declareParams_typed hv rfl rfl).of_ok l.declareParams_eq
  have hlast : l.last.function.params = params :=
    (congrArg Ssa.Declaration.params l.declaration_eq).trans hp
  rw [hlast]
  have hk := l.inside_ready.advances.grows.keeps.trans l.finishes.becomes.keeps
  exact ht.imp fun _ _ => hk.hasType

theorem Lowered.typedParams_eq (l : Lowered globals callees own body) :
    l.last.function.trimmed.typedParams.map Prod.snd = own.signature.paramTypes := by
  have hp : List.Forall₂ l.last.function.trimmed.HasType l.last.function.trimmed.params _ :=
    l.typed_params
  rw [Function.typedParams_eq hp, List.map_snd_zip hp.length_eq.ge]

-- The frame of a function is that of its signature.
theorem Lowered.frame_eq (l : Lowered globals callees own body) :
    l.last.function.trimmed.frame =
      Frame.ofSignature own.name own.signature.paramTypes l.result := by
  have hname : l.last.function.trimmed.name = own.name := l.name_eq
  have hresult : l.last.function.trimmed.result = l.result := l.finished.result
  rw [Function.frame, l.typedParams_eq, hname, hresult]

end Lowered

end Lowering.Direct

namespace Bytecode.Module

open Lowering (Callee Options)
open Lowering.Direct
open Ssa (Function ValueId)

variable {m : Module} {options : Options} {j j' : Journal} {module : Ssa.Module} {f : Function}

-- Value `v` calls function `index` of the module by the convention: its arguments go by their own
-- types to the registers of the function's frame, and it finds the result where that frame leaves
-- it. For a body of the module, that is the frame of the function it was lowered to.
def CallsByConvention (m : Module) (module : Ssa.Module) (f : Function) (v : ValueId) (index : Nat) :
    Prop :=
  ∃ d c s types frame, f.value? v = some d ∧ d.op = .call c ∧ m.signature? index = some s ∧
    s.result = .ok c.result ∧
    Frame.ofSignature (m.functionName index) s.paramTypes c.result = .ok frame ∧
    f.typesOf c.args = some types ∧ Convention.assign types = .ok frame.arguments ∧
    c.result.map Convention.resultRegister = frame.result ∧
    ∀ k g, index = m.imports.length + k → module.functions[k]? = some g → g.frame = .ok frame

-- The frame of a body's function is that of the signature in its place.
theorem frame_of_lower {k : Nat} {s : Signature} {result : Option Scalar}
    (h : m.lower options j = .ok module j') (hf : module.functions[k]? = some f)
    (hs : m.signature? (m.imports.length + k) = some s) (hr : s.result = .ok result) :
    f.frame = Frame.ofSignature (m.functionName (m.imports.length + k)) s.paramTypes result := by
  obtain ⟨_, _, _, hl⟩ := lowered_of_lower h
  obtain ⟨own, _, _, ho, l, rfl⟩ := hl k f hf
  rw [callee?, hs] at ho
  cases ho
  cases l.result_eq.symm.trans hr
  exact l.frame_eq

theorem callsByConvention_of_lowersCall {callees : List Callee} {v : ValueId} {index : Nat}
    (h : m.lower options j = .ok module j') (hn : Numbered m callees)
    (hc : LowersCall callees f v index) : m.CallsByConvention module f v index := by
  obtain ⟨d, callee, args, hd, hc, hop, hr, ha, regs, hregs⟩ := hc
  rw [hn.getElem?, callee?, Option.map_eq_some_iff] at hc
  obtain ⟨s, hs, rfl⟩ := hc
  obtain ⟨frame, hframe, harguments, hresult⟩ :=
    Frame.exists_ofSignature (m.functionName index) d.type hregs
  refine ⟨d, _, s, s.paramTypes, frame, hd, hop, hs, hr, hframe, ?types, ?arguments, ?result, ?own⟩
  case types => exact Function.typesOf_eq ha
  case arguments => rw [harguments, hregs]
  case result => exact hresult.symm
  case own =>
    rintro k g rfl hg
    rw [frame_of_lower h hg hs hr, hframe]

-- Every function has a frame, with a register for each of its parameters, and calls by the
-- convention wherever the body in its place does.
theorem lower_agrees_on_registers (h : m.lower options j = .ok module j') (k : Nat) (f : Function)
    (hf : module.functions[k]? = some f) :
    ∃ body s frame, m.bodies[k]? = some body ∧ m.signature? (m.imports.length + k) = some s ∧
      f.typedParams.map Prod.snd = s.paramTypes ∧ f.frame = .ok frame ∧
      frame.arguments.length = f.params.length ∧
      f.callValues.Forall₂ (m.CallsByConvention module f)
        (body.code.filterMap Instruction.callee?) := by
  obtain ⟨callees, hn, _, hl⟩ := lowered_of_lower h
  obtain ⟨own, body, hb, ho, l, rfl⟩ := hl k f hf
  obtain ⟨s, hs, rfl⟩ := Option.map_eq_some_iff.mp ho
  obtain ⟨regs, hregs⟩ := l.accepted
  obtain ⟨frame, hframe, harguments, _⟩ :=
    Frame.exists_ofSignature (m.functionName (m.imports.length + k)) l.result hregs
  refine ⟨body, s, frame, hb, hs, l.typedParams_eq, l.frame_eq.trans hframe, ?length, ?calls⟩
  case length =>
    rw [harguments, Convention.length_of_assign hregs]
    exact l.typed_params.length_eq.symm
  case calls => exact l.finished.calls.imp fun _ _ => callsByConvention_of_lowersCall h hn

theorem lower_agrees_on_registers_choice : ∃ module j' f frame,
    choice.lower {} #[] = .ok module j' ∧ module.functions[0]? = some f ∧ f.frame = .ok frame ∧
      frame.arguments = [.rdi] ∧ frame.result = some .rax ∧
      f.callValues.Forall₂ (choice.CallsByConvention module f) [0] := by
  obtain ⟨module, j', f, h, hf, _⟩ := exists_choice
  obtain ⟨body, s, frame, hb, hs, _, hframe, _, hc⟩ := lower_agrees_on_registers h 0 f hf
  cases hb
  cases hs
  have hsig := (frame_of_lower h hf rfl rfl).symm.trans hframe
  cases hsig
  exact ⟨module, j', f, _, h, hf, hframe, rfl, rfl, hc⟩

end Bytecode.Module

end StackCompiler
