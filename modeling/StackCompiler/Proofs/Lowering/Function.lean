import StackCompiler.Proofs.Lowering.Body
import StackCompiler.Proofs.Lowering.Live
import StackCompiler.Proofs.Ssa.Finish

-- Whole functions: the slots before the body, the return behind it, and the clean-up.

namespace StackCompiler.Lowering.Direct

open Bytecode (Instruction ValueType)
open Ssa (BlockId Function Op Scope ValueId)

variable {cx : Context} {dom : Scope} {calls : List Nat} {s t : State} {op : Op}
variable {name : String} {type : Scalar} {types : List Scalar} {index : Nat} {slots : List Slot}

namespace State

-- The state before the first instruction of a function.
def blank (s : State) (name : String) (result : Option Scalar) : State :=
  let t : State := { s with
    function := .empty name result
    stack := []
    regions := []
    isDead := false
    isEnded := false }
  { t.grow with block := t.function.freshBlock }

def addParam (s : State) (name : String) (type : Scalar) : State :=
  { s with function := s.function.addParam name type |>.2 }

section Blank

variable {result : Option Scalar} {b : BlockId}

@[simp]
theorem blank_regions : (s.blank name result).regions = [] :=
  rfl

@[simp]
theorem blank_stack : (s.blank name result).stack = [] :=
  rfl

theorem blank_created_iff :
    b.index < (s.blank name result).function.blocks.size ↔ b = (s.blank name result).block := by
  cases b
  simp [blank, grow, Function.addBlock, Function.empty, Function.freshBlock]

theorem blank_insts : (s.blank name result).function.insts b = [] :=
  Function.addBlock_insts.trans <| by simp [Function.insts, Function.block?, Function.empty]

theorem blank_terminator? : (s.blank name result).function.terminator? b = none := by
  simp [Function.terminator?_eq, blank_insts]

theorem blank_successors : (s.blank name result).function.successors b = [] :=
  Function.successors_eq_nil_of_terminator? blank_terminator?

theorem draft_blank : (s.blank name result).function.Draft where
  wf := (Function.wellFormed_empty name result).addBlock
  linked := ⟨fun hb => by simp [blank_successors] at hb, fun _ => by simp [blank_successors]⟩
  entry := rfl
  phis hv := by simp [blank_insts] at hv

-- There is no scope to choose but the one that knows only the entry.
theorem scoped_blank :
    (s.blank name result).function.Scoped fun _ => {(s.blank name result).block} where
  self hb := blank_created_iff.mp hb
  root _ he := Option.some.inj he.symm
  created _ hx := blank_created_iff.mpr hx
  entry he := by cases he; exact subset_rfl
  edge hb := by simp [blank_successors] at hb
  fits hd := nomatch hd
  ordered hd := nomatch hd

theorem valid_blank {globals : List GlobalSlot} {callees : List Callee} :
    (s.blank name result).Valid ⟨globals, callees, [], result⟩
      (fun _ => {(s.blank name result).block}) [] where
  draft := draft_blank
  scope := scoped_blank
  opens b := by
    simp only [blank_regions, List.not_mem_nil, false_and, exists_false, or_false]
    exact ⟨fun ho => blank_created_iff.mp ho.created,
      fun hb => ⟨blank_created_iff.mpr hb, blank_terminator?⟩⟩
  nodup := by simp
  live_iff := iff_of_true rfl (.entry rfl)
  regions := by simp
  within := by simp
  nested := by simp
  headers := by simp
  stack := by simp
  below := by simp
  result := rfl
  slots := by simp
  calls := .nil

end Blank

theorem Valid.addParam (hv : s.Valid cx dom calls) (hr : s.regions = []) :
    (s.addParam name type).Valid cx dom calls where
  draft := hv.draft.addParam
  scope := hv.scope.addParam hv.draft
  opens b := by
    refine .trans ?_ (hv.opens b)
    exact ⟨fun h => ⟨h.created, hv.draft.wf.addParam_terminator? ▸ h.unclosed⟩,
      fun h => ⟨h.created, hv.draft.wf.addParam_terminator?.trans h.unclosed⟩⟩
  nodup := hv.nodup
  live_iff := hv.live_iff.trans hv.draft.wf.addParam_reaches_iff.symm
  regions := by simp [State.addParam, hr]
  within := by simp [State.addParam, hr]
  nested := hv.nested
  headers := hv.headers
  stack o ho := (hv.stack o ho).mono .addParam subset_rfl
  below := by simp [State.addParam, hr]
  result := hv.result
  slots slot hs := (hv.slots slot hs).mono .addParam rfl
  calls := hv.calls_of_grows .addParam Function.callValues_addParam

theorem advances_addParam (hw : s.function.WellFormed) : s.Advances (s.addParam name type) where
  block := rfl
  regions := rfl
  isDead := rfl
  isEnded := rfl
  function := .addParam hw
  below _ _ := rfl

theorem usable_addParam {b : BlockId} :
    (s.addParam name type).function.Usable dom b s.function.freshValue type :=
  ⟨⟨name, some type, .param s.function.params.length, none⟩,
    by simp [State.addParam, Function.addParam_value?], rfl, by simp⟩

theorem Ready.addParam (h : s.Ready) : (s.addParam name type).Ready :=
  ⟨h.wf.addParam, h.isOpen.created, h.wf.addParam_terminator?.trans h.isOpen.unclosed⟩

end State

-- What is left behind by code that sets up slots.
structure Declares (cx : Context) (dom : Scope) (calls : List Nat) (s : State) (slots : List Slot)
    (t : State) : Prop where
  inside : Inside cx dom calls s t
  declared : ∀ slot ∈ slots, slot.Declared t.function

theorem Declares.nil (hv : s.Valid cx dom calls) : Declares cx dom calls s [] s :=
  ⟨⟨hv, .refl s⟩, by simp⟩

theorem Declares.cons {slot : Slot} {u : State} (hi : Inside cx dom calls s t)
    (hd : slot.Declared t.function) (h : Declares cx dom calls t slots u) :
    Declares cx dom calls s (slot :: slots) u :=
  ⟨hi.trans h.inside, List.forall_mem_cons.mpr
    ⟨hd.mono h.inside.advances.grows.keeps h.inside.advances.entry, h.declared⟩⟩

section Slots

variable (hv : s.Valid cx dom calls) (he : s.function.entry = some s.block)
include hv he

theorem allocLocal_meets : Meets (allocLocal index type) s fun v t => Inside cx dom calls s t ∧
    (⟨type, v⟩ : Slot).Declared t.function ∧ t.function.Usable dom t.block v .ptr := by
  refine (append_meets hv ⟨rfl, rfl, rfl⟩ .alloc).mono fun v t ⟨hv', ht, hi⟩ => ?_
  subst hv' ht
  exact ⟨hi, ⟨_, Function.emit_value?_freshValue, rfl, he.symm⟩, s.usable_emit hv⟩

theorem declareParams_meets (hr : s.regions = []) :
    Meets (declareParams index types) s fun slots t => Declares cx dom calls s slots t := by
  induction types generalizing s index
  case nil => exact .nil hv
  case cons type types hi =>
    simp only [declareParams, meets_bind, meets_get, meets_set, meets_pure]
    let u := s.addParam ("param" ++ toString index) type
    have hu : Inside cx dom calls s u := ⟨hv.addParam hr, s.advances_addParam hv.draft.wf⟩
    refine (allocLocal_meets (s := u) hu.valid he).mono fun v s₁ h => ?_
    obtain ⟨h₁, hd, ha⟩ := h
    have hp : s₁.function.Usable dom s₁.block s.function.freshValue type :=
      h₁.advances.usable s.usable_addParam
    refine (perform_meets h₁.valid ⟨rfl, rfl, rfl⟩ (.store hp ha)).mono fun _ s₂ h₂ => ?_
    have hd := hd.mono h₂.advances.grows.keeps h₂.advances.entry
    have h₂ := hu.trans (h₁.trans h₂)
    have he : s₂.function.entry = some s₂.block := h₂.advances.entry ▸ h₂.advances.block ▸ he
    exact (hi h₂.valid he (h₂.advances.regions.trans hr)).mono fun _ _ h => .cons h₂ hd h

theorem declareLocals_meets :
    Meets (declareLocals name index types) s fun slots t => Declares cx dom calls s slots t := by
  induction types generalizing s index
  case nil => exact .nil hv
  case cons type types hi =>
    simp only [declareLocals, meets_bind, meets_note, meets_pure]
    refine (allocLocal_meets hv he).mono fun v s₁ h => ?_
    obtain ⟨h₁, hd, ha⟩ := h
    refine (define_meets h₁.valid ⟨rfl, rfl, rfl⟩ .const).mono fun zero s₂ h => ?_
    obtain ⟨h₂, hz⟩ := h
    have ha := h₂.advances.usable ha
    refine (perform_meets h₂.valid ⟨rfl, rfl, rfl⟩ (.store hz ha)).mono fun _ s₃ h₃ => ?_
    have h₃ := (h₂.trans h₃).journal (s₃.journal.record (.localDeclared index name))
    have hd := hd.mono h₃.advances.grows.keeps h₃.advances.entry
    have h₃ := h₁.trans h₃
    have he := h₃.advances.entry ▸ h₃.advances.block ▸ he
    exact (hi h₃.valid he).mono fun _ _ h => .cons h₃ hd h

end Slots

theorem Inside.entry_eq {result : Option Scalar} (h : Inside cx dom calls (s.blank name result) t) :
    t.function.entry = some t.block := by
  rw [h.advances.entry, h.advances.block]
  rfl

-- Other slots can be used once they are declared.
theorem State.Valid.locals {cx' : Context} (hv : s.Valid cx dom calls) (hr : cx'.result = cx.result)
    (hc : cx'.callees = cx.callees) (hs : ∀ slot ∈ cx'.locals, slot.Declared s.function) :
    s.Valid cx' dom calls :=
  { hv with
    result := hv.result.trans hr.symm
    slots := hs
    calls := hc ▸ hv.calls }

theorem Declares.valid_append {globals : List GlobalSlot} {callees : List Callee}
    {result : Option Scalar} {params locals : List Slot} {u : State}
    (h₁ : Declares ⟨globals, callees, [], result⟩ dom calls s params t)
    (h₂ : Declares ⟨globals, callees, [], result⟩ dom calls t locals u) :
    u.Valid ⟨globals, callees, params ++ locals, result⟩ dom calls := by
  have hi := h₂.inside
  refine hi.valid.locals rfl rfl <| List.forall_mem_append.mpr ⟨fun slot hs => ?_, h₂.declared⟩
  exact (h₁.declared slot hs).mono hi.advances.grows.keeps hi.advances.entry

-- How a body without open regions ends: dead code goes nowhere, and live code returns.
inductive State.Concludes (cx : Context) (s : State) : State → Prop
  | dead (hd : s.isDead = true) : Concludes cx s (s.emit "" none .exit)
  | live {u : State} {op : Op} (hd : s.isDead = false) (hr : s.Returns cx u op) :
    Concludes cx s (u.emit "" none op)

theorem closeBody_meets (hv : s.Valid cx dom calls) :
    Meets (closeBody cx.result) s fun _ t => s.Concludes cx t := by
  have hc : s.function.isClosed s.block = false :=
    Function.isClosed_eq_false_iff.mpr hv.isOpen.unclosed
  have hb : s.function.hasBlock s.block = true := decide_eq_true hv.isOpen.created
  simp only [closeBody, meets_bind, meets_get, hb, hc, Bool.not_true, Bool.not_false,
    Bool.false_eq_true, ↓reduceIte]
  refine meets_ite.mpr ⟨fun hd => ?_, fun hd => ?_⟩
  · exact (meets_perform hv.draft.wf hv.isOpen).mpr (State.Concludes.dead hd)
  · rw [Bool.not_eq_true] at hd
    refine (emitReturn_meets hv hd).mono fun _ t h => ?_
    obtain ⟨u, op, hr, ht⟩ := h
    subst ht
    exact .live hd hr

-- A function that `code` was lowered to, before its unreachable blocks are taken out.
structure Finished (cx : Context) (code : List Instruction) (dom : Scope) (f : Function) : Prop where
  complete : f.Complete dom
  result : f.result = cx.result
  calls : List.Forall₂ (LowersCall cx.callees f) f.callValues (code.filterMap Instruction.callee?)

theorem State.Valid.finished {code : List Instruction}
    (hv : s.Valid cx dom (code.filterMap Instruction.callee?)) (hr : s.regions = [])
    (ht : op.isTerminator = true) (hn : op.successors = [])
    (hf : s.function.Fits dom s.block none op) :
    Finished cx code dom (s.function.emit s.block "" none op) := by
  have hs := hv.sealed_close ht hn hf
  refine ⟨⟨hs.draft, hs.scope, fun b ho => ?_⟩, hv.result, hv.calls_of_grows hs.grows hs.callValues⟩
  rw [hs.open_iff, hv.open_and_ne_iff] at ho
  simp [hr] at ho

theorem State.Concludes.finished {code : List Instruction} (h : s.Concludes cx t)
    (hv : s.Valid cx dom (code.filterMap Instruction.callee?)) (hr : s.regions = []) :
    Finished cx code dom t.function := by
  cases h
  case dead hd =>
    refine hv.finished hr rfl rfl (.inr fun hreach => ?_)
    simp [hv.live_iff.mpr hreach] at hd
  case live u op hd hret =>
    have hf : Finished cx code dom (s.function.emit s.block "" none op) :=
      hv.finished hr hret.yields.isTerminator hret.yields.successors
        (hret.yields.fits hv .refl subset_rfl)
    rcases hret.popped with rfl | ⟨_, _, _, _, rfl⟩ <;> exact hf

theorem pruneNoted_eq_ok (f : Function) (j : Journal) : ∃ j', f.pruneNoted j = .ok f.prune j' := by
  simp only [Function.pruneNoted]
  split <;> exact ⟨_, rfl⟩

theorem pruneFunction_prunes : Meets pruneFunction s fun _ t => t.function = s.function.prune.2 := by
  obtain ⟨j, hp⟩ := pruneNoted_eq_ok s.function s.journal
  simp only [pruneFunction, meets_bind, meets_get, meets_lift hp, meets_modify, meets_note]

theorem pruneFunction_meets (h : s.function.Draft) :
    Meets pruneFunction s fun _ t => t.function = s.function.trimmed :=
  Function.prune_eq_trimmed h ▸ pruneFunction_prunes

section Translation

variable {options : Options} {globals : List GlobalSlot} {callees : List Callee} {own : Callee}
variable {body : Bytecode.Body} {f : Function}

-- The states on the way from a body to a finished function.
structure Lowered (globals : List GlobalSlot) (callees : List Callee) (own : Callee)
    (body : Bytecode.Body) where
  result : Option Scalar
  origin : State
  params : List Slot
  declared : State
  locals : List Slot
  ready : State
  ended : State
  last : State
  dom : Scope
  result_eq : own.signature.result = .ok result
  accepted : ∃ regs, Convention.assign own.signature.paramTypes = .ok regs
  declareParams_eq : declareParams 0 own.signature.paramTypes (origin.blank own.name result) =
    .ok params declared
  declareLocals_eq : declareLocals own.name params.length (body.locals.map ValueType.scalar) declared =
    .ok locals ready
  valid_ready : ready.Valid ⟨globals, callees, params ++ locals, result⟩
    (fun _ => {(origin.blank own.name result).block}) []
  lowerCode_eq : lowerCode ⟨globals, callees, params ++ locals, result⟩ own.name body.code.length 1
    body.code ready = .ok () ended
  valid_ended : ended.Valid ⟨globals, callees, params ++ locals, result⟩ dom
    (body.code.filterMap Instruction.callee?)
  regions_eq : ended.regions = []
  closeBody_eq : closeBody result ended = .ok () last
  concludes : ended.Concludes ⟨globals, callees, params ++ locals, result⟩ last

def Lowered.context (l : Lowered globals callees own body) : Context :=
  ⟨globals, callees, l.params ++ l.locals, l.result⟩

theorem Lowered.finished (l : Lowered globals callees own body) :
    Finished l.context body.code l.dom l.last.function :=
  l.concludes.finished l.valid_ended l.regions_eq

-- The slots are set up before the body begins.
theorem Lowered.inside_declared (l : Lowered globals callees own body) :
    Inside ⟨globals, callees, [], l.result⟩ (fun _ => {(l.origin.blank own.name l.result).block}) []
      (l.origin.blank own.name l.result) l.declared :=
  ((declareParams_meets l.origin.valid_blank rfl rfl).of_ok l.declareParams_eq).inside

theorem Lowered.inside_ready (l : Lowered globals callees own body) :
    Inside ⟨globals, callees, [], l.result⟩ (fun _ => {(l.origin.blank own.name l.result).block}) []
      l.declared l.ready := by
  have h := l.inside_declared
  exact ((declareLocals_meets h.valid h.entry_eq).of_ok l.declareLocals_eq).inside

theorem Lowered.advances_ready (l : Lowered globals callees own body) :
    (l.origin.blank own.name l.result).Advances l.ready :=
  (l.inside_declared.trans l.inside_ready).advances

-- What is left of a function that was begun in `s` and is cleaned up in `t`.
structure Lowered.Leads (l : Lowered globals callees own body) (s t : State) : Prop where
  origin : l.origin = { s with journal := s.journal.record (.functionStarted own.name own.signature) }
  pruned : ∃ j, (j = l.last.journal ∨ ∃ left, j = l.last.journal.record (.operandsLeft own.name left)) ∧
    pruneFunction { l.last with journal := j } = .ok () t
  function : t.function = l.last.function.trimmed

theorem translate_leads : Meets (translate globals callees own body) s fun f t =>
    f = t.function ∧ ∃ l : Lowered globals callees own body, l.Leads s t := by
  simp only [translate, meets_bind, meets_note]
  cases hres : own.signature.result
  case error => exact benign_of_signature_result hres
  case ok result =>
    simp only [meets_ofExcept_ok]
    refine accept_meets fun hregs => ?_
    simp only [meets_modify, meets_newBlock, meets_setBlock]
    let o : State := { s with journal := s.journal.record (.functionStarted own.name own.signature) }
    have hv : (o.blank own.name result).Valid ⟨globals, callees, [], result⟩ _ [] :=
      o.valid_blank
    refine (declareParams_meets hv rfl rfl).eq_ok.mono fun params s₁ h => ?_
    obtain ⟨hx₁, hd₁⟩ := h
    have h₁ := hd₁.inside
    refine (declareLocals_meets h₁.valid h₁.entry_eq).eq_ok.mono fun locals s₂ h => ?_
    obtain ⟨hx₂, hd₂⟩ := h
    have hv₂ := hd₁.valid_append hd₂
    refine (lowerCode_meets hv₂).eq_ok.mono fun _ s₃ h => ?_
    obtain ⟨hx₃, dom, hv₃⟩ := h
    simp only [meets_get]
    refine meets_ite.mpr ⟨fun _ => trivial, fun hr => ?_⟩
    have hr : s₃.regions = [] := by simpa using hr
    refine (closeBody_meets hv₃).eq_ok.bind fun _ s₄ h => ?_
    obtain ⟨hx₄, hc⟩ := h
    let l : Lowered globals callees own body := {
      result, origin := o, params, declared := s₁, locals, ready := s₂, ended := s₃, last := s₄, dom
      result_eq := hres
      accepted := hregs
      declareParams_eq := hx₁
      declareLocals_eq := hx₂
      valid_ready := hv₂
      lowerCode_eq := hx₃
      valid_ended := hv₃
      regions_eq := hr
      closeBody_eq := hx₄
      concludes := hc }
    have hd : s₄.function.Draft := l.finished.complete.draft
    have hp (j) (hj : j = s₄.journal ∨ ∃ left, j = s₄.journal.record (.operandsLeft own.name left)) :
        Meets pruneFunction { s₄ with journal := j } fun _ t =>
          ∃ l : Lowered globals callees own body, l.Leads s t :=
      (pruneFunction_meets (s := { s₄ with journal := j }) hd).eq_ok.mono fun _ _ h =>
        ⟨l, rfl, ⟨j, hj, h.1⟩, h.2⟩
    simp only [meets_bind, meets_get, meets_ite, meets_note, meets_pure, true_and]
    exact ⟨fun _ => hp _ (.inr ⟨_, rfl⟩), fun _ => hp _ (.inl rfl)⟩

theorem translate_meets : Meets (translate globals callees own body) s fun f _ =>
    ∃ l : Lowered globals callees own body, f = l.last.function.trimmed :=
  translate_leads.mono fun _ _ h => by
    obtain ⟨hf, l, hl⟩ := h
    exact ⟨l, hf.trans hl.function⟩

end Translation

end StackCompiler.Lowering.Direct
