import StackCompiler.Proofs.DeadCode.Removal
import StackCompiler.Proofs.Ssa.Confinement

-- Between any two instructions the code is taken for dead exactly if no path leads to it. Dead code
-- leads neither to live code nor to where live code may still go on, so that nothing of it is left in
-- the finished function.

namespace StackCompiler.Lowering

namespace Direct

open Bytecode (Instruction)
open Ssa (BlockId Function Op Scope ValueId)

variable {cx : Context} {dom : Scope} {calls : List Nat} {s t u : State} {r : Region} {f g : Function}
variable {op : Op} {kind : RegionKind} {result after : Option Result} {outer : List Region}
variable {depth : Nat} {b : BlockId} {name : String} {type : Scalar}

theorem State.Valid.isDead_iff (hv : s.Valid cx dom calls) :
    s.isDead = true ↔ ¬s.function.Reaches s.block := by
  rw [← hv.live_iff, Bool.not_eq_false]

-- Most instructions do no more than add code to the active block. They draw no edge, and only in dead
-- code do they make up an operand.
structure State.Fills (s t : State) : Prop where
  ready : t.Ready
  block : t.block = s.block
  isDead : t.isDead = s.isDead
  entry : t.function.entry = s.function.entry
  size : t.function.blocks.size = s.function.blocks.size
  successors : ∀ p, t.function.successors p = s.function.successors p
  padded : ∀ b, t.function.Padded b → s.function.Padded b ∨ b = s.block ∧ s.isDead = true

namespace State.Fills

-- Only the function, the active block and the flag matter.
theorem congr (h : s.Ready) (hf : t.function = s.function) (hb : t.block = s.block)
    (hd : t.isDead = s.isDead) : s.Fills t where
  ready := ⟨hf ▸ h.wf, hb ▸ hf ▸ h.isOpen⟩
  block := hb
  isDead := hd
  entry := hf ▸ rfl
  size := hf ▸ rfl
  successors _ := hf ▸ rfl
  padded _ h := .inl (hf ▸ h)

theorem trans (h₁ : s.Fills t) (h₂ : t.Fills u) : s.Fills u where
  ready := h₂.ready
  block := h₂.block.trans h₁.block
  isDead := h₂.isDead.trans h₁.isDead
  entry := h₂.entry.trans h₁.entry
  size := h₂.size.trans h₁.size
  successors p := (h₂.successors p).trans (h₁.successors p)
  padded b hb := (h₂.padded b hb).elim (h₁.padded b) fun h =>
    .inr ⟨h.1.trans h₁.block, h₁.isDead.symm.trans h.2⟩

theorem emit {type : Option Scalar} (h : s.Ready) (ht : op.isTerminator = false)
    (hn : name ≠ "undef" ∨ s.isDead = true) : s.Fills (s.emit name type op) where
  ready := h.emit ht
  block := rfl
  isDead := rfl
  entry := rfl
  size := Function.emit_size
  successors _ := h.wf.emit_successors_of_not_isTerminator h.isOpen ht
  padded _ hb := hb.of_emit.imp_right fun hu => ⟨hu.2, hn.resolve_left (not_not_intro hu.1)⟩

theorem addParam (h : s.Ready) : s.Fills (s.addParam name type) where
  ready := h.addParam
  block := rfl
  isDead := rfl
  entry := rfl
  size := rfl
  successors _ := h.wf.addParam_successors
  padded _ hb := .inl hb.of_addParam

-- Nothing is made up in a live block.
theorem carries (h : s.Fills t) (hv : s.Valid cx dom calls) : s.function.Carries t.function := by
  refine .of_successors_eq (Nat.le_of_eq h.size.symm) h.entry h.successors fun b hb => ?_
  refine (h.padded b hb).imp_right ?_
  rintro ⟨rfl, hd⟩
  exact hv.isDead_iff.mp hd

end State.Fills

-- Where code can be added to the active block, no more than that happens.
def State.Stays (s t : State) : Prop :=
  s.Ready → s.Fills t

instance : Inner State.Stays State.Whatever where
  refl h := .congr h rfl rfl rfl
  trans h₁ h₂ h := (h₁ h).trans (h₂ (h₁ h).ready)
  stop := trivial
  fail _ _ := trivial
  quiet hq hb hd h := .congr h hq.function hb hd
  append ht _ hn := by
    unfold Relates
    split
    case h_2 => trivial
    case h_1 hx =>
      intro h
      rw [append_eq_ok h.wf h.isOpen] at hx
      cases hx
      exact .emit h ht hn

theorem Relates.fills {x : Lower α} {a : α} (h : Relates State.Stays State.Whatever x s)
    (hx : x s = .ok a t) (hs : s.Ready) : s.Fills t :=
  h.of_ok hx hs

theorem Region.Valid.guarded (hr : r.Valid f dom) (hl : r.isLive = true) : f.Guarded r.continuation :=
  fun _ hb => (hr.live_iff hb).mpr hl

namespace State

-- Where live code can go when it leaves a region.
theorem Valid.waits_continuation (hv : s.Valid cx dom calls) (hl : s.isDead = false)
    (hr : r ∈ s.regions) :
    s.function.Guarded r.continuation ∧ s.function.insts r.continuation = [] :=
  ⟨(hv.regions r hr).guarded ((hv.within r hr).live hl), (hv.regions r hr).empty⟩

theorem Exits.waits {rs : List Region} (he : s.Exits depth b rs) (hv : s.Valid cx dom calls)
    (hl : s.isDead = false) :
    s.function.Reaches b ∨ s.function.Guarded b ∧ s.function.insts b = [] := by
  cases he
  case restart r hr hk =>
    have hm := List.mem_of_getElem? hr
    exact .inl (((hv.regions r hm).header hk).2.2.2 ((hv.within r hm).live hl))
  case leave r after hr hk hh => exact .inr (hv.waits_continuation hl (List.mem_of_getElem? hr))

theorem Valid.carries_enter (hv : s.Valid cx dom calls)
    (he : Enters s.function.freshBlock s.grow.function.freshBlock kind op)
    (hf : s.function.Fits dom s.block none op) :
    s.function.Carries (s.enter kind op result).function := by
  have hne := s.freshBlock_ne
  have hm : ∀ b ∈ op.successors, b = s.function.freshBlock ∨ b = s.grow.function.freshBlock := by
    cases he <;> simp [Op.successors]
  obtain ⟨dom', hs, _⟩ := hv.fork (by cases he <;> rfl) (by cases he <;> simp [Op.successors, hne]) hm hf
  refine hs.carries hv.draft (fun b hb => .inl (hs.created b ?_)) fun _ => .of_emit_unnamed
  simpa using hm b hb

-- The active block leads nowhere.
theorem Valid.carries_close (hv : s.Valid cx dom calls) (ht : op.isTerminator = true)
    (hn : op.successors = []) (hf : s.function.Fits dom s.block none op) :
    s.function.Carries (s.function.emit s.block "" none op) :=
  (hv.sealed_close ht hn hf).carries hv.draft (by simp [hn]) fun _ => .of_emit_unnamed

-- The active block is closed and only dead code follows.
theorem Valid.carries_die (hv : s.Valid cx dom calls)
    (hs : s.function.Sealed dom s.block op [] (s.function.emit s.block "" none op) dom)
    (hu : u.function = s.function.emit s.block "" none op)
    (ho : ∀ b ∈ op.successors, s.function.Reaches s.block ∧
      (s.function.Reaches b ∨ s.function.Guarded b ∧ s.function.insts b = [])) :
    s.function.Carries u.die.function := by
  refine (hv.sealed_die (hu ▸ hs)).carries hv.draft (fun b hb => .inr (ho b hb)) fun b hb => ?_
  have hb : u.function.Padded b := hb
  rw [hu] at hb
  exact hb.of_emit_unnamed

theorem Leaves.carries (h : s.Leaves cx depth t) (hv : s.Valid cx dom calls) (hl : s.isDead = false) :
    s.function.Carries t.function := by
  cases h
  case returns u op _ hr =>
    refine hv.carries_die (hr.yields.isSealed hv) ?_ (by simp [hr.yields.successors])
    rcases hr.popped with rfl | ⟨_, _, _, _, rfl⟩ <;> rfl
  case exits b regions he =>
    refine hv.carries_die (he.isSealed hv hl) rfl fun a ha => ?_
    cases List.mem_singleton.mp ha
    exact ⟨hv.live_iff.mp hl, he.waits hv hl⟩

theorem Forks.carries {lhs rhs : ValueId} {cond : Comparison} {ty : Scalar}
    (h : s.Forks cx lhs cond rhs depth t) (hv : s.Valid cx dom calls) (hd : s.isDead = false)
    (hl : s.function.Usable dom s.block lhs ty) (hr : s.function.Usable dom s.block rhs ty) :
    s.function.Carries t.function := by
  have hfresh : s.function.blocks.size ≤ s.function.freshBlock.index := Nat.le_refl _
  cases h
  case exits b regions he =>
    refine (he.sealed_fork hv hd cond hl hr).carries hv.draft (fun a ha => ?_) fun _ => .of_emit_unnamed
    rcases List.mem_pair.mp ha with rfl | rfl
    · exact .inr ⟨hv.live_iff.mp hd, he.waits hv hd⟩
    · exact .inl hfresh
  case returns op hdepth hy =>
    obtain ⟨dom', hs, _⟩ := hy.sealed_fork cond hv hl hr
    refine hs.carries hv.draft (fun a ha => .inl ?_) fun _ h => h.of_emit_unnamed.of_emit_unnamed
    rcases List.mem_pair.mp ha with rfl | rfl
    · exact hfresh
    · exact hs.created _ (by simp)

theorem Concludes.carries (h : s.Concludes cx t) (hv : s.Valid cx dom calls) :
    s.function.Carries t.function := by
  cases h
  case dead hd => exact hv.carries_close rfl rfl (.inr (hv.isDead_iff.mp hd))
  case live u op hd hr =>
    have hc := hv.carries_close hr.yields.isTerminator hr.yields.successors
      (hr.yields.fits hv .refl subset_rfl)
    rcases hr.popped with rfl | ⟨_, _, _, _, rfl⟩ <;> exact hc

-- A result is made up only where nothing else is expected.
theorem Fills.receive (h : s.Ready)
    (hd : ∀ res, after = some res → res.incoming = [] → s.isDead = true) :
    s.Fills (s.receive after) := by
  have hyield {t : State} {name type op} (h : t.Ready) (ht : op.isTerminator = false)
      (hn : name ≠ "undef" ∨ t.isDead = true) : t.Fills (t.yield name type op) :=
    (Fills.emit h ht hn).trans (.congr (h.emit ht) rfl rfl rfl)
  cases after
  case none => exact .congr h rfl rfl rfl
  case some res =>
    simp only [State.receive]
    split
    case isTrue hi => exact hyield h rfl (.inr (hd res rfl (List.isEmpty_iff.mp hi)))
    case isFalse =>
      have hj : s.Fills { s with journal := s.journal.record .phiCreated } := .congr h rfl rfl rfl
      exact hj.trans (hyield hj.ready rfl (.inl (by decide)))

section End

variable (hv : s.Valid cx dom calls) (hr : s.regions = r :: outer)
include hv hr

theorem Ends.carries_resume (he : s.Ends r r.continuation op after) :
    s.function.Carries (s.resume r outer op).function := by
  refine (Ends.isSealed hv hr he).carries hv.draft (fun b hb => .inr ?_) fun _ => .of_emit_unnamed
  cases he
  case live hl hh =>
    cases List.mem_singleton.mp hb
    exact ⟨hv.live_iff.mp hl, .inr (hv.waits_continuation hl (by simp [hr]))⟩
  case dead => cases hb

-- If no exit brought a result, none leads behind the region.
theorem Ends.isDead_resume (hi : r.IsIf → r.result = none) (he : s.Ends r r.continuation op after)
    {res : Result} (ha : after = some res) (hn : res.incoming = []) :
    (s.resume r outer op).isDead = true := by
  obtain ⟨r', hr', hf, hres, hif⟩ := Ends.exists_region hv hr he
  rw [(Ends.valid_resume hv hr he).isDead_iff]
  have hc : r'.continuation = (s.resume r outer op).block := Region.continuation_congr hf
  have hres := hres.trans ha
  have hmerged := (hr'.merged hres (Region.not_isIf_of_result hf hif hi (by simp [hres]))).2
  rw [← hc]
  intro h
  cases h
  case entry he => exact hr'.not_entry he
  case step p _ hp =>
    have hp := (hmerged p).mpr hp
    simp [Result.sources, hn] at hp

theorem Ends.carries (hi : r.IsIf → r.result = none) (he : s.Ends r r.continuation op after) :
    s.function.Carries ((s.resume r outer op).receive after).function := by
  have hv' := Ends.valid_resume hv hr he
  refine (Ends.carries_resume hv hr he).trans (Fills.carries (.receive hv'.ready ?_) hv')
  exact fun res => Ends.isDead_resume hv hr hi he

theorem Ends.carries_turn {breaks : List BlockId} (hk : r.kind = .if_ breaks)
    (he : s.Ends r s.function.freshBlock op after)
    (hg : breaks.forM (Function.retarget · r.continuation s.function.freshBlock)
      (s.grow.emit "" none op).function = .ok () g) : s.function.Carries g := by
  have hs := Ends.sealed_turn hv hr he
  obtain ⟨g', hg', hm⟩ := Ends.exists_moved hv hr he hk
  cases hg.symm.trans hg'
  have hc : s.function.Carries (s.grow.emit "" none op).function := by
    refine hs.carries hv.draft (fun b hb => .inl ?_) fun _ => .of_emit_unnamed
    rw [he.eq_of_mem_successors hb]
    exact Nat.le_refl _
  -- The exits so far and the end of the first branch lead behind the `if` now.
  have hturn := hv.region_turn hr hk hs he hm
  refine hc.moved hm hs.draft (Nat.le_refl _) ?_ (fun hn => hturn.guarded (hturn.isLive_of_reaches hn))
    fun _ => .of_forM_retarget hg
  rw [← hm.insts]
  exact hturn.empty

end End

end State

theorem step_carries {i : Instruction} (hv : s.Valid cx dom calls) :
    Meets (step cx i) s fun _ t => s.function.Carries t.function := by
  cases i
  case block =>
    refine (startBlock_meets hv).mono fun _ t h => ?_
    obtain ⟨res, _, rfl⟩ := h
    exact hv.carries_enter .block .jump
  case loop =>
    refine (startLoop_meets hv).mono fun _ t h => ?_
    obtain ⟨res, _, rfl⟩ := h
    exact hv.carries_enter .loop .jump
  case if_ =>
    refine (startIf_meets hv).mono fun _ t h => ?_
    obtain ⟨lhs, cond, rhs, u, res, hx, hi, ⟨ty, hl, hr⟩, _, rfl⟩ := h
    have hu := (popCondition_relates.fills hx hv.ready).carries hv
    exact hu.trans (hi.valid.carries_enter (.if_ lhs cond rhs) (.branch hl hr))
  case else_ =>
    refine (startElse_meets hv).mono fun _ t h => ?_
    obtain ⟨r, outer, breaks, op, after, g, hr, hk, he, hg, rfl⟩ := h
    exact he.carries_turn hv hr hk hg
  case end_ =>
    refine (close_meets hv).mono fun _ t h => ?_
    rcases h with ⟨_, rfl⟩ | ⟨r, outer, op, after, hr, hi, he, rfl⟩
    · exact .refl _
    · exact he.carries hv hr hi
  case br =>
    refine (branch_meets hv).mono fun _ t h => ?_
    rcases h with ⟨_, rfl⟩ | ⟨hd, hl⟩
    · exact .refl _
    · exact hl.carries hv hd
  case brIf =>
    refine (branchIf_meets hv).mono fun _ t h => ?_
    obtain ⟨lhs, cond, rhs, u, hx, hi, ⟨ty, hl, hr⟩, hor⟩ := h
    have hu := (popCondition_relates.fills hx hv.ready).carries hv
    rcases hor with ⟨_, rfl⟩ | ⟨hd, hf⟩
    · exact hu
    · exact hu.trans (hf.carries hi.valid hd hl hr)
  case return_ =>
    refine (return_meets hv).mono fun _ t h => ?_
    rcases h with ⟨_, rfl⟩ | ⟨hd, hl⟩
    · exact .refl _
    · exact hl.carries hv hd
  all_goals
    refine (step_inside_meets hv trivial).eq_ok.mono fun _ t h => ?_
    exact ((step_inside_relates trivial).fills h.1 hv.ready).carries hv

theorem lowerCode_carries {function : String} {total position : Nat} {code : List Instruction}
    (hv : s.Valid cx dom calls) :
    Meets (lowerCode cx function total position code) s fun _ t =>
      s.function.Carries t.function := by
  induction code generalizing s dom calls position
  case nil => exact .refl _
  case cons i code hi =>
    simp only [lowerCode, meets_bind, meets_note, meets_get, meets_ite]
    refine ⟨fun _ => trivial, fun _ => ?_⟩
    have hstep (j : Journal) := (step_carries (hv.journal j)).and (step_meets (i := i) (hv.journal j))
    refine (hstep _).mono fun _ t h => ?_
    obtain ⟨hc, dom', ht⟩ := h
    exact (hi ht).mono fun _ u hu => hc.trans hu

section Function

variable {globals : List GlobalSlot} {callees : List Callee} {own : Callee} {body : Bytecode.Body}
variable {types : List Bytecode.ValueType} {options : Options} {origin ready : State}
variable {code rest : List Instruction}

theorem State.confined_blank {name : String} {type : Option Scalar} : (s.blank name type).function.Confined where
  guarded _ _ hb := by simp [blank_successors] at hb
  plain _ := draft_blank.wf.not_padded blank_insts

theorem Prepared.confined (h : Prepared globals callees own types cx s) : s.function.Confined := by
  obtain @⟨result, origin, declared, _, params, _, _, hparams, hlocals⟩ := h
  have hv : (origin.blank own.name result).Valid ⟨globals, callees, [], result⟩ _ [] :=
    origin.valid_blank
  have hd := (declareParams_relates fun _ _ _ => .addParam).fills hparams hv.ready
  have hs := hd.trans (declareLocals_relates.fills hlocals hd.ready)
  exact (hs.carries hv).confined State.confined_blank

theorem complete_meets {name : String} (hv : s.Valid cx dom calls) :
    Meets (complete cx name) s fun f _ => s.regions = [] ∧
      ∃ last, closeBody cx.result s = .ok () last ∧ s.Concludes cx last ∧ f = last.function.prune.2 := by
  simp only [complete, meets_bind, meets_get]
  refine meets_ite.mpr ⟨fun _ => trivial, fun hr => ?_⟩
  have hr : s.regions = [] := by simpa using hr
  refine (closeBody_meets hv).eq_ok.bind fun _ last h => ?_
  have hp (j : Journal) := pruneFunction_prunes (s := { last with journal := j })
  simp only [meets_bind, meets_get, meets_ite, meets_note, meets_pure]
  exact ⟨fun _ => (hp _).mono fun _ _ hf => ⟨hr, last, h.1, h.2, hf⟩,
    fun _ => (hp _).mono fun _ _ hf => ⟨hr, last, h.1, h.2, hf⟩⟩

-- From the slots on, there is only one way to the function.
theorem exists_of_lowerFunction_eq_ok
    (hprepare : prepare globals callees own body.locals origin = .ok cx ready)
    (h : lowerFunction options globals callees own body origin = .ok f t) :
    ∃ ended last dom, lowerCode cx own.name body.code.length 1 body.code ready = .ok () ended ∧
      ended.Valid cx dom (body.code.filterMap Instruction.callee?) ∧ ended.regions = [] ∧
      closeBody cx.result ended = .ok () last ∧ ended.Concludes cx last ∧
      f = last.function.prune.2 := by
  obtain ⟨g, _, htranslate, hreport⟩ := exists_of_bind_eq_ok h
  obtain ⟨_, _, _, hg⟩ := exists_of_bind_eq_ok hreport
  cases hg
  rw [translate_eq] at htranslate
  obtain ⟨_, _, hprepare', hlower⟩ := exists_of_bind_eq_ok htranslate
  cases hprepare.symm.trans hprepare'
  obtain ⟨_, ended, hended, hcomplete⟩ := exists_of_bind_eq_ok hlower
  obtain ⟨_, hready⟩ := (prepare_meets.of_ok hprepare).valid
  obtain ⟨dom, hv⟩ := (lowerCode_meets hready).of_ok hended
  obtain ⟨hr, last, hclose, hconcludes, hf⟩ := (complete_meets hv).of_ok hcomplete
  exact ⟨ended, last, dom, hended, hv, hr, hclose, hconcludes, hf⟩

-- What only live code may lead to, at a later point.
theorem State.Valid.guarded (hv : s.Valid cx dom calls) (hf : s.function.Confined)
    (hc : s.function.Carries g) (hr : r ∈ s.regions) (hl : r.isLive = true)
    (hb : b = r.continuation ∨ r.kind = .loop b) : g.Guarded b := by
  have hvr := hv.regions r hr
  rcases hb with rfl | hk
  · exact hc.guarded (hv.isOpen_continuation hr).created (hvr.guarded hl)
  · obtain ⟨hb, _, _, hreach⟩ := hvr.header hk
    exact hc.guarded hb (hf.guarded (hreach hl))

theorem lowerCode_confines
    (hprepare : prepare globals callees own body.locals origin = .ok cx ready)
    (hbody : body.code = code ++ rest)
    (hcode : lowerCode cx own.name body.code.length 1 code ready = .ok () u) :
    (u.isDead = true ↔ ¬u.function.Reaches u.block) ∧
    (∀ p, ¬u.function.Reaches p → ∀ b ∈ u.function.successors p, ¬u.function.Reaches b ∧
      ∀ earlier later w, code = earlier ++ later →
        lowerCode cx own.name body.code.length 1 earlier ready = .ok () w →
        ∀ r ∈ w.regions, r.isLive = true → b ≠ r.continuation ∧ r.kind ≠ .loop b) ∧
    ∀ options f t, lowerFunction options globals callees own body origin = .ok f t →
      (∀ b ∈ f.layout, ∀ v d, (v, d) ∈ f.instructions b → d.name ≠ "undef") ∧
      (∀ r ∈ u.regions, ∀ res, r.result = some res → ∀ p ∈ res.sources, p ∈ f.layout) ∧
      ∃ ended last, lowerCode cx own.name body.code.length 1 body.code ready = .ok () ended ∧
        closeBody cx.result ended = .ok () last ∧ f = last.function.prune.2 ∧
        f.values = last.function.values := by
  have hprepared := prepare_meets.of_ok hprepare
  obtain ⟨_, hready⟩ := hprepared.valid
  have hconfined {code total position w}
      (hx : lowerCode cx own.name total position code ready = .ok () w) : w.function.Confined :=
    ((lowerCode_carries hready).of_ok hx).confined hprepared.confined
  obtain ⟨_, hu⟩ := (lowerCode_meets hready).of_ok hcode
  refine ⟨hu.isDead_iff, fun p hp b hb => ⟨fun hr => ?reached, ?scope⟩, fun options f t hf => ?function⟩
  case reached => exact hp ((hconfined hcode).guarded hr p hb)
  case scope =>
    rintro earlier later w rfl hw r hr hl
    obtain ⟨w', hw', hlater⟩ := exists_of_lowerCode_append hcode
    cases hw.symm.trans hw'
    obtain ⟨_, hvw⟩ := (lowerCode_meets hready).of_ok hw
    have hc := (lowerCode_carries hvw).of_ok hlater
    refine ⟨fun he => hp ?_, fun hk => hp ?_⟩
    · exact hvw.guarded (hconfined hw) hc hr hl (.inl he) p hb
    · exact hvw.guarded (hconfined hw) hc hr hl (.inr hk) p hb
  case function =>
    obtain ⟨ended, last, _, hended, hve, hr, hclose, hconcludes, rfl⟩ :=
      exists_of_lowerFunction_eq_ok hprepare hf
    have hdraft := (hconcludes.finished hve hr).complete.draft
    have hlast := (hconcludes.carries hve).confined (hconfined hended)
    have hprune := Function.prune_eq_trimmed hdraft
    refine ⟨fun b hb v d hm => ?plain, fun r hm res hres p hp => ?sources, ended, last, hended, hclose,
      rfl, hprune ▸ rfl⟩
    case plain =>
      rw [hprune] at hb hm
      exact hlast.name_ne hdraft hb hm
    case sources =>
      rw [hbody] at hcode hended
      obtain ⟨_, hcode', hrest⟩ := exists_of_lowerCode_append hended
      cases hcode.symm.trans hcode'
      have hfinishes := (Finishes.of_lowerCode_meets hu).of_ok hrest last hr hconcludes
      obtain ⟨i, hi, rfl⟩ := List.mem_map.mp hp
      rw [hprune, Function.mem_trimmed_layout_iff hdraft]
      exact hfinishes.becomes.reaches ((hu.regions r hm).incoming hres i hi).1

end Function

end Direct

open Bytecode (Instruction)

variable {space : Space} {own : Callee} {body : Bytecode.Body} {cx : Context} {origin ready u : State}
variable {code rest : List Instruction}

-- The code is taken for dead exactly if no path leads to it, and then it keeps away from live code and
-- from where the regions of live code start and end. So nothing that was made up for it is left in the
-- function, every exit that a result waits for stays, and no phi loses an entry when dead blocks are
-- taken out.
theorem lowerCode_confines_dead_code
    (hprepare : prepare space own body.locals origin = .ok cx ready)
    (hbody : body.code = code ++ rest)
    (hcode : lowerCode cx own.name body.code.length 1 code ready = .ok () u) :
    ∃ g here, u.builder.function = some g ∧ u.builder.block = some here ∧
    (u.isDead = true ↔ ¬g.Reaches here) ∧
    (∀ p, ¬g.Reaches p → ∀ b ∈ g.successors p, ¬g.Reaches b ∧
      ∀ earlier later w, code = earlier ++ later →
        lowerCode cx own.name body.code.length 1 earlier ready = .ok () w →
        ∀ r ∈ w.regions, r.isLive = true → b ≠ r.continuation ∧ r.kind ≠ .loop b) ∧
    ∀ options f t, lowerFunction options space own body origin = .ok f t →
      (∀ b ∈ f.layout, ∀ v d, (v, d) ∈ f.instructions b → d.name ≠ "undef") ∧
      (∀ r ∈ u.regions, ∀ phi, r.phi = some phi → ∃ res, u.phis[phi]? = some res ∧
        ∀ p ∈ res.sources, p ∈ f.layout) ∧
      ∃ ended last h, lowerCode cx own.name body.code.length 1 body.code ready = .ok () ended ∧
        closeBody cx.result ended = .ok () last ∧ last.builder.function = some h ∧
        f = h.prune.2 ∧ f.values = h.values := by
  obtain ⟨hspace, v, hv, hr⟩ := exists_direct_prepare hprepare
  obtain ⟨w, hw, hu⟩ := exists_direct_lowerCode hr hcode
  obtain ⟨hdead, hedges, hfunction⟩ := Direct.lowerCode_confines hv hbody hw
  refine ⟨w.function, w.block, hu.function, hu.block, hu.isDead ▸ hdead, fun p hp b hb => ?edges,
    fun options f t hf => ?function⟩
  case edges =>
    obtain ⟨hb, hscope⟩ := hedges p hp b hb
    refine ⟨hb, fun earlier later w hc hw r hm hl => ?_⟩
    obtain ⟨x, hx, hw⟩ := exists_direct_lowerCode hr hw
    refine hscope earlier later x hc hx (r.direct w.phis) ?_ hl
    rw [hw.regions]
    exact List.mem_map_of_mem hm
  case function =>
    have hn : ∀ i ∈ body.code, cx.NamesCalls i := hspace ▸ namesCalls_of_lowerFunction hf
    obtain ⟨_, hd⟩ := exists_direct_lowerFunction hf
    obtain ⟨hplain, hsources, ended, last, hended, hclose, hprune, hvalues⟩ := hfunction options f _ hd
    refine ⟨hplain, fun r hm phi hphi => ?sources, ?course⟩
    case sources =>
      obtain ⟨res, hres⟩ := hu.exists_phi hm hphi
      refine ⟨res, hres, hsources (r.direct u.phis) ?_ res ?_⟩
      · rw [hu.regions]
        exact List.mem_map_of_mem hm
      · rw [Region.direct, hphi, Option.bind_some, hres]
    case course =>
      obtain ⟨e, he, her⟩ := exists_lowerCode_of_direct hn hr hended
      obtain ⟨_, l, hl, -, hlr⟩ := (closeBody_frames.tracks her).of_ok_right hclose
      exact ⟨e, l, last.function, he, hl, hlr.function, hprune, hvalues⟩

-- A loop that nothing leads to, behind a return and inside of a block that live code leaves. The operand
-- that is dropped before it has to be made up.
theorem lowerCode_confines_dead_code_behind_return :
    let own : Callee := ⟨"f", ⟨[.i32], [.i32]⟩⟩
    let code : List Instruction :=
      [.block .empty, .localGet 0, .brIf 0, .localGet 0, .return_, .drop, .loop .empty]
    let rest : List Instruction := [.br 0, .end_, .end_, .localGet 0, .end_]
    let body : Bytecode.Body := ⟨0, [.f64], code ++ rest⟩
    ∃ cx ready u g here f t, prepare {} own body.locals (.start #[]) = .ok cx ready ∧
      lowerCode cx own.name body.code.length 1 code ready = .ok () u ∧
      u.builder.function = some g ∧ u.builder.block = some here ∧
      u.isDead = true ∧ ¬g.Reaches here ∧
      (∀ p, ¬g.Reaches p → ∀ b ∈ g.successors p, ¬g.Reaches b) ∧
      lowerFunction {} {} own body (.start #[]) = .ok f t ∧
      ∀ b ∈ f.layout, ∀ v d, (v, d) ∈ f.instructions b → d.name ≠ "undef" := by
  intro own code rest body
  have hwhole : (match lowerFunction {} {} own body (.start #[]) with
      | .ok .. => true
      | .error .. => false) = true := by decide +kernel
  have hlive : (match prepare {} own body.locals (.start #[]) with
      | .ok cx ready =>
        match lowerCode cx own.name body.code.length 1 code ready with
        | .ok _ u => u.isDead
        | .error .. => false
      | .error .. => false) = true := by decide +kernel
  split at hwhole
  case h_2 => cases hwhole
  case h_1 f t hf =>
    split at hlive
    case h_2 => cases hlive
    case h_1 cx ready hprepare =>
      split at hlive
      case h_2 => cases hlive
      case h_1 u hcode =>
        obtain ⟨g, here, hg, hhere, hiff, hedges, hfunction⟩ :=
          lowerCode_confines_dead_code hprepare rfl hcode
        exact ⟨cx, ready, u, g, here, f, t, hprepare, hcode, hg, hhere, hlive, hiff.mp hlive,
          fun p hp b hb => (hedges p hp b hb).1, hf, (hfunction {} f t hf).1⟩

end StackCompiler.Lowering
