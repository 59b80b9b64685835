import StackCompiler.Proofs.Lowering.Direct.Simulation

-- The two lowerings give the same functions.

namespace StackCompiler.Lowering

open Bytecode (Instruction ValueType)
open Ssa (Build Builder Function ValueId)

-- Between two functions nothing is open.
structure State.Idles (M : Ssa.Module) (t : State) (u : Direct.State) : Prop where
  module : t.builder.module = M
  function : t.builder.function = none
  journal : t.journal = u.journal
  blockCount : t.blockCount = u.blockCount

section Function

variable {M : Ssa.Module} {t : State} {u : Direct.State} {space : Space} {self : Callee}
variable {cx : Context} {name : String} {types : List Scalar} {result : Option Scalar} {index : Nat}

theorem allocLocal_frames {type : Scalar} : Frames (allocLocal index type) (Direct.allocLocal index type) :=
  define_frames

theorem declareParams_frames : Frames (declareParams index types) (Direct.declareParams index types) := by
  induction types generalizing index
  case nil => exact .pure
  case cons type types hi =>
    intro M u phis regions hl
    have h (param : ValueId) : Frames
        (do
          let address ← allocLocal index type
          perform (.store param address)
          return ⟨type, address⟩ :: (← declareParams (index + 1) types))
        (do
          let address ← Direct.allocLocal index type
          Direct.perform (.store param address)
          return ⟨type, address⟩ :: (← Direct.declareParams (index + 1) types)) :=
      allocLocal_frames.bind fun _ => perform_frames.bind fun _ => hi.bind fun _ => .pure
    let added := u.function.addParam ("param" ++ toString index) type
    exact h added.1 M { u with function := added.2 } phis regions hl

theorem declareLocals_frames :
    Frames (declareLocals name index types) (Direct.declareLocals name index types) := by
  induction types generalizing index
  case nil => exact .pure
  case cons hi =>
    exact allocLocal_frames.bind fun _ => define_frames.bind fun _ => perform_frames.bind fun _ =>
      Frames.note.bind fun _ => hi.bind fun _ => .pure

theorem isClosed_eq (phis : List Result) (regions : List Region) :
    (liftM Builder.isClosed : Lower Bool) (.ofDirect M u phis regions) =
      if u.function.hasBlock u.block then
        .ok (u.function.isClosed u.block) (.ofDirect M u phis regions)
      else
        .error (.dangling (.block u.block)) (.ofDirect M u phis regions) := by
  have he : Builder.isClosed (State.ofDirect M u phis regions).builder =
      (if u.function.hasBlock u.block then
        pure (u.function.isClosed u.block)
      else
        throw (.dangling (.block u.block)) : Build Bool) (State.ofDirect M u phis regions).builder := rfl
  simp only [liftM, monadLift, MonadLift.monadLift, zoom, he]
  cases u.function.hasBlock u.block <;> rfl

theorem closeBody_frames : Frames (closeBody result) (Direct.closeBody result) := by
  intro M u phis regions hl
  have hend : Frames
      (if u.isDead then perform .exit else emitReturn result "end")
      (if u.isDead then Direct.perform .exit else Direct.emitReturn result "end") :=
    .ite perform_frames emitReturn_frames
  have hclosed := isClosed_eq (M := M) (u := u) phis regions
  rw [closeBody, Direct.closeBody, Tracks, get_bind]
  cases hb : u.function.hasBlock u.block <;> rw [hb] at hclosed
  case false =>
    rw [bind_eq_of_eq_error hclosed]
    exact ⟨rfl, rfl, rfl⟩
  case true =>
    rw [bind_eq_of_eq_ok hclosed]
    cases u.function.isClosed u.block
    case true => exact ⟨rfl, rfl, rfl⟩
    case false => exact hend M u phis regions hl

theorem pruneFunction_frames : Frames pruneFunction Direct.pruneFunction := by
  intro M u phis regions hl
  have h : Frames
      (do
        let x ← u.function.pruneNoted
        Builder.edit (set x.2)
        note (.blocksPruned x.1))
      (do
        let x ← u.function.pruneNoted
        modify fun s => { s with function := x.2 }
        Direct.note (.blocksPruned x.1)) :=
    Frames.journaled.bind fun _ => Frames.edit.bind fun _ => .note
  exact h M u phis regions hl

-- Opens a function, with its first block.
theorem start_tracks {x : Lower α} {y : Direct.Lower β} {Q : α → State → β → Direct.State → Prop}
    (h : t.Idles M u)
    (hk : ∀ v, v.regions = [] → Tracks M.functions x (.ofDirect M v [] []) y v Q) :
    Tracks M.functions
      (do
        Builder.start name result
        modify fun s =>
          { s with stack := [], phis := [], regions := [], isDead := false, isEnded := false }
        Builder.setBlock (← newBlock)
        x)
      t
      (do
        modify fun s =>
          { s with
            function := .empty name result
            stack := []
            regions := []
            isDead := false
            isEnded := false }
        Direct.setBlock (← Direct.newBlock)
        y)
      u Q := by
  obtain ⟨journal, blockCount, ⟨M, function, block⟩, _, _, _, _, _⟩ := t
  obtain ⟨hm, hf, hj, hc⟩ := h
  cases hm
  cases hf
  cases hj
  cases hc
  let number := u.blockCount + 1
  let added := (Function.empty name result).addBlock (name ++ "_block" ++ toString number)
  let j := (u.journal.record (.blockNumbered number)).record .blockCreated
  exact hk ⟨j, number, added.2, added.1, [], [], false, false⟩ rfl

section Idles

variable (h : t.Idles M u)
include h

theorem note_idles {e : Event} :
    Tracks M.functions (note e) t (Direct.note e) u fun _ t _ u => t.Idles M u := by
  refine ⟨h.module, h.function, ?_, h.blockCount⟩
  exact congrArg (Journal.record · e) h.journal

theorem ofExcept_idles {x : Except CompileError α} :
    Tracks M.functions (ofExcept x) t (ofExcept x) u fun a t b u => a = b ∧ t.Idles M u := by
  cases x
  case ok => exact ⟨rfl, h⟩
  case error => exact ⟨rfl, h.journal, congrArg Ssa.Module.functions h.module⟩

theorem journaled_idles {x : Journaled CompileError α} :
    Tracks M.functions (liftM x) t (liftM x) u fun a t b u => a = b ∧ t.Idles M u := by
  simp only [Tracks, liftM, monadLift, MonadLift.monadLift, zoom, h.journal]
  cases x u.journal
  case ok => exact ⟨rfl, h.module, h.function, rfl, h.blockCount⟩
  case error => exact ⟨rfl, rfl, congrArg Ssa.Module.functions h.module⟩

theorem prepare_tracks {locals : List ValueType} :
    Tracks M.functions (prepare space self locals) t
      (Direct.prepare space.globals space.callees self locals) u fun cx t cx' v =>
        cx.toSpace = space ∧ cx' = cx.direct ∧ t.Represents M none none v := by
  refine (note_idles h).bind fun _ t _ u h => ?_
  refine (ofExcept_idles h).bind ?_
  rintro result t _ u ⟨rfl, h⟩
  refine (journaled_idles h).bind ?_
  rintro _ t _ u ⟨rfl, h⟩
  refine start_tracks h fun v hv => ?_
  have hr : State.Represents M none none (.ofDirect M v [] []) v :=
    ⟨[], [], rfl, ⟨hv, by simp, by simp⟩, .none⟩
  refine (declareParams_frames.tracks hr).bind ?_
  rintro params t _ u ⟨rfl, hr⟩
  refine (declareLocals_frames.tracks hr).bind ?_
  rintro locals t _ u ⟨rfl, hr⟩
  exact ⟨rfl, rfl, hr⟩

end Idles

theorem prune_tracks (hr : t.Represents M none none u) :
    Tracks M.functions pruneFunction t
      (do
        Direct.pruneFunction
        return (← get).function)
      u fun _ t f v => f = v.function ∧ t.Represents M none none v := by
  refine .look_right (fun _ _ => rfl) ((pruneFunction_frames.tracks hr).mono ?_)
  rintro _ t _ u ⟨rfl, hr⟩
  exact ⟨rfl, hr⟩

theorem complete_tracks (hr : t.Represents M none none u) :
    Tracks M.functions
      (do
        let s ← get
        if !s.regions.isEmpty then
          throw (.malformed (.openRegions s.regions.length name))
        closeBody cx.result
        let left := (← get).stack.length
        if 0 < left then
          note (.operandsLeft name left)
        pruneFunction)
      t (Direct.complete cx.direct name) u
      fun _ t f v => f = v.function ∧ t.Represents M none none v := by
  refine .get ?_
  rw [hr.regions, List.length_map, List.isEmpty_map]
  refine .ite (fun _ => ⟨rfl, hr.fail⟩) fun _ => ?_
  refine (closeBody_frames.tracks hr).bind ?_
  rintro _ t _ u ⟨rfl, hr⟩
  refine .get ?_
  rw [hr.stack]
  refine .ite (fun _ => ?noted) fun _ => prune_tracks hr
  refine (Frames.note.tracks hr).bind ?_
  rintro _ t _ u ⟨rfl, hr⟩
  exact prune_tracks hr

theorem translate_tracks {body : Bytecode.Body} (hn : ∀ i ∈ body.code, space.NamesCalls i)
    (h : t.Idles M u) :
    Tracks M.functions (translate space self body) t
      (Direct.translate space.globals space.callees self body) u fun _ t f v =>
        f = v.function ∧ t.Represents M none none v := by
  rw [Direct.translate_eq]
  refine (prepare_tracks h).bind ?_
  rintro cx t _ u ⟨rfl, rfl, hr⟩
  refine (lowerCode_simulates hn M t u hr).bind ?_
  rintro _ t _ u ⟨rfl, hr⟩
  exact complete_tracks hr

-- Nothing changes the function any more.
theorem inspect_tracks {options : Options} {phis : List Result} {regions : List Region} :
    Tracks M.functions (inspect options) (.ofDirect M u phis regions)
      (Direct.inspect options u.function) u fun _ t _ v =>
        v.function = u.function ∧ t = .ofDirect M v phis regions := by
  have hverify (v : Direct.State) (hv : v.function = u.function) :
      Tracks M.functions (do if options.verify then ofExcept u.function.verify)
        (.ofDirect M v phis regions) (do if options.verify then ofExcept u.function.verify) v
        fun _ t _ v => v.function = u.function ∧ t = .ofDirect M v phis regions := by
    refine .ite (fun _ => ?_) fun _ => ⟨hv, rfl⟩
    cases u.function.verify
    case ok => exact ⟨hv, rfl⟩
    case error => exact ⟨rfl, rfl, rfl⟩
  have hprint : Tracks M.functions
      (do
        if options.print then
          note (.functionPrinted u.function.text)
        if options.verify then
          ofExcept u.function.verify)
      (.ofDirect M u phis regions) (Direct.inspect options u.function) u
      fun _ t _ v => v.function = u.function ∧ t = .ofDirect M v phis regions :=
    .ite (fun _ => hverify { u with journal := u.journal.record (.functionPrinted u.function.text) } rfl)
      fun _ => hverify u rfl
  exact hprint

theorem lowerFunction_tracks {options : Options} {body : Bytecode.Body}
    (hn : ∀ i ∈ body.code, space.NamesCalls i) (h : t.Idles M u) :
    Tracks M.functions (lowerFunction options space self body) t
      (Direct.lowerFunction options space.globals space.callees self body) u fun f t f' v =>
        f = f' ∧ t.Idles { M with functions := M.functions ++ [f] } v := by
  refine (translate_tracks hn h).bind ?_
  rintro _ t _ u ⟨rfl, hr⟩
  obtain ⟨phis, regions, rfl, -, -⟩ := hr
  rw [Direct.report, bind_assoc]
  refine inspect_tracks.bind ?_
  rintro _ _ _ v ⟨hv, rfl⟩
  rw [← hv]
  exact ⟨rfl, rfl, rfl, rfl, rfl⟩

end Function

section Transfer

variable {M : Ssa.Module} {t t' ready : State} {u : Direct.State} {space : Space} {self : Callee}
variable {cx : Context} {locals : List ValueType} {name : String} {total position : Nat}
variable {code rest : List Instruction} {options : Options} {body : Bytecode.Body} {f : Function}

-- The direct lowering of a function sets out from here.
def State.direct (t : State) : Direct.State :=
  { Direct.State.start t.journal with blockCount := t.blockCount }

theorem State.idles (h : t.builder.function = none) : t.Idles t.builder.module t.direct :=
  ⟨rfl, h, rfl, rfl⟩

theorem builder_of_journaled {x : Journaled CompileError α} {a : α}
    (h : (liftM x : Lower α) t = .ok a t') : t'.builder = t.builder := by
  simp only [liftM, monadLift, MonadLift.monadLift, zoom] at h
  cases hx : x t.journal <;> rw [hx] at h <;> cases h
  rfl

theorem function_eq_none_of_start {result : Option Scalar} {a : Unit}
    (h : (liftM (Builder.start name result) : Lower Unit) t = .ok a t') :
    t.builder.function = none := by
  cases hf : t.builder.function
  case none => rfl
  case some opened =>
    simp only [liftM, monadLift, MonadLift.monadLift, zoom, Builder.start, get_bind, hf] at h
    cases h

-- No function is begun inside of another one.
theorem function_eq_none_of_prepare (h : prepare space self locals t = .ok cx ready) :
    t.builder.function = none := by
  obtain ⟨_, noted, hnote, h⟩ := exists_of_bind_eq_ok h
  obtain ⟨_, checked, hresult, h⟩ := exists_of_bind_eq_ok h
  obtain ⟨_, accepted, haccept, h⟩ := exists_of_bind_eq_ok h
  obtain ⟨_, started, hstart, -⟩ := exists_of_bind_eq_ok h
  cases hnote
  have hchecked : checked.builder = t.builder := by
    cases hr : self.signature.result <;> rw [hr] at hresult <;> cases hresult
    rfl
  rw [← hchecked, ← builder_of_journaled haccept]
  exact function_eq_none_of_start hstart

theorem exists_direct_prepare (h : prepare space self locals t = .ok cx ready) :
    cx.toSpace = space ∧ ∃ v,
      Direct.prepare space.globals space.callees self locals t.direct = .ok cx.direct v ∧
      ready.Represents t.builder.module none none v := by
  have hidles := State.idles (function_eq_none_of_prepare h)
  obtain ⟨_, v, hv, hs, rfl, hr⟩ := (prepare_tracks hidles).of_ok h
  exact ⟨hs, v, hv, hr⟩

theorem exists_direct_lowerCode (hr : t.Represents M none none u)
    (h : lowerCode cx name total position code t = .ok () t') :
    ∃ v, Direct.lowerCode cx.direct name total position code u = .ok () v ∧
      t'.Represents M none none v := by
  obtain ⟨_, v, hv, -, hr⟩ := (lowerCode_simulates (namesCalls_of_lowerCode h) M t u hr).of_ok h
  exact ⟨v, hv, hr⟩

theorem exists_lowerCode_of_direct {v : Direct.State} (hn : ∀ i ∈ code, cx.NamesCalls i)
    (hr : t.Represents M none none u)
    (h : Direct.lowerCode cx.direct name total position code u = .ok () v) :
    ∃ t', lowerCode cx name total position code t = .ok () t' ∧ t'.Represents M none none v := by
  obtain ⟨_, t', ht, -, hr⟩ := (lowerCode_simulates hn M t u hr).of_ok_right h
  exact ⟨t', ht, hr⟩

theorem exists_of_lowerCode_append
    (h : lowerCode cx name total position (code ++ rest) t = .ok () t') :
    ∃ u, lowerCode cx name total position code t = .ok () u ∧
      lowerCode cx name total (position + code.length) rest u = .ok () t' := by
  have heq : lowerCode cx name total position (code ++ rest) = (do
      lowerCode cx name total position code
      lowerCode cx name total (position + code.length) rest) := by
    clear h
    induction code generalizing position
    case nil => rfl
    case cons i code hi =>
      simp only [List.cons_append, lowerCode, hi, List.length_cons, Nat.add_assoc, Nat.add_comm 1,
        bind_assoc]
      refine bind_congr fun _ => bind_congr fun u => ?_
      split <;> simp only [bind_assoc]
  obtain ⟨_, u, h₁, h₂⟩ := exists_of_bind_eq_ok (heq ▸ h)
  exact ⟨u, h₁, h₂⟩

-- The lowering of a function begins with that of any first part of its code.
theorem exists_of_lowerFunction (hc : body.code = code ++ rest)
    (h : lowerFunction options space self body t = .ok f t') :
    ∃ cx ready u, prepare space self body.locals t = .ok cx ready ∧
      lowerCode cx self.name body.code.length 1 code ready = .ok () u := by
  obtain ⟨_, _, h, _⟩ := exists_of_bind_eq_ok h
  obtain ⟨cx, ready, hprepare, h⟩ := exists_of_bind_eq_ok h
  obtain ⟨_, _, hlower, _⟩ := exists_of_bind_eq_ok h
  obtain ⟨u, hcode, _⟩ := exists_of_lowerCode_append (hc ▸ hlower)
  exact ⟨cx, ready, u, hprepare, hc ▸ hcode⟩

theorem namesCalls_of_lowerFunction (h : lowerFunction options space self body t = .ok f t') :
    ∀ i ∈ body.code, space.NamesCalls i := by
  obtain ⟨cx, ready, u, hprepare, hcode⟩ := exists_of_lowerFunction (List.append_nil _).symm h
  rw [← (exists_direct_prepare hprepare).1]
  exact namesCalls_of_lowerCode hcode

theorem exists_direct_lowerFunction (h : lowerFunction options space self body t = .ok f t') :
    ∃ v, Direct.lowerFunction options space.globals space.callees self body t.direct = .ok f v := by
  obtain ⟨cx, ready, u, hprepare, hcode⟩ := exists_of_lowerFunction (List.append_nil _).symm h
  have hidles := State.idles (function_eq_none_of_prepare hprepare)
  obtain ⟨_, v, hv, rfl, -⟩ := (lowerFunction_tracks (namesCalls_of_lowerFunction h) hidles).of_ok h
  exact ⟨v, hv⟩

theorem exists_lowerFunction_of_direct (hn : ∀ i ∈ body.code, space.NamesCalls i)
    (ht : t.builder.function = none)
    (h : Direct.lowerFunction options space.globals space.callees self body t.direct = .ok f u) :
    ∃ t', lowerFunction options space self body t = .ok f t' := by
  obtain ⟨_, t', ht', rfl, -⟩ := (lowerFunction_tracks hn (State.idles ht)).of_ok_right h
  exact ⟨t', ht'⟩

end Transfer

end StackCompiler.Lowering
