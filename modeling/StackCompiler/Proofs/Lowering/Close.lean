import StackCompiler.Proofs.Lowering.Control

-- The ends of regions, and what holds after a whole body.

namespace StackCompiler.Lowering.Direct

open Ssa (BlockId Function Op Scope ValueId)

variable {cx : Context} {dom : Scope} {calls : List Nat} {s t u : State} {op : Op} {r : Region}
variable {next : BlockId} {outer : List Region} {after : Option Result}

namespace State

-- Goes on behind region `r`, which the active block left through `op`.
def resume (s : State) (r : Region) (outer : List Region) (op : Op) : State :=
  let f := s.function.emit s.block "" none op
  { s with
    function := f
    block := r.continuation
    stack := s.below r.height
    regions := outer
    isDead := !r.isLive || (f.predecessors r.continuation).isEmpty }

-- Goes on in the other branch of the `if` that is region `r`, in function `g`.
def turn (s : State) (r : Region) (outer : List Region) (after : Option Result) (g : Function) :
    State :=
  { s.grow with
    function := g
    block := r.continuation
    stack := s.below r.height
    regions := { r with
      kind := .else_
      continuation := s.function.freshBlock
      result := after } :: outer
    isDead := !r.isLive || (g.predecessors r.continuation).isEmpty }

-- Puts the value of an operation on the stack.
def yield (s : State) (name : String) (type : Scalar) (op : Op) : State :=
  { s.emit name (some type) op with stack := .value s.function.freshValue :: s.stack }

-- Puts the result of a region on the stack.
def receive (s : State) : Option Result → State
  | none => s
  | some res =>
    if res.incoming.isEmpty then s.yield "undef" res.type (.const (.zero res.type))
    else { s with journal := s.journal.record .phiCreated }.yield "block_result" res.type
      (.phi res.incoming)

end State

theorem popResult_meets {res : Result} (hk : ∀ o ∈ u.stack, o.Usable u.function dom u.block)
    (hr : r.result = some res) :
    Meets (popResult r res) u fun res' t => u.Hands r.result (some res') ∧
      t = { u with stack := u.below r.height } := by
  simp only [popResult, meets_bind, meets_get, meets_ite]
  refine ⟨fun ha => ha, fun ha => ?_⟩
  rw [Decidable.not_not] at ha
  split
  case h_2 => trivial
  case h_1 v rest hs =>
    obtain ⟨ty, hu⟩ := hk (.value v) (by simp [hs])
    have hrest : rest = u.below r.height := by
      rw [State.below, ha, hs]
      rfl
    simp only [meets_bind, meets_set]
    refine (fill_meets (s := { u with stack := rest }) hu).mono fun res' t h => ?_
    obtain ⟨ht, he, hres'⟩ := h
    subst ht he hres'
    exact ⟨hr ▸ .value (by simp [hs]) hu.hasType, by rw [hrest]⟩

theorem closeRegion_meets (hw : u.function.WellFormed) (ho : u.function.Open u.block)
    (hk : ∀ o ∈ u.stack, o.Usable u.function dom u.block) :
    Meets (closeRegion r next) u fun res t => ∃ op, u.Ends r next op res ∧
      t = { u with stack := u.below r.height }.emit "" none op := by
  have hperform {op} {stack : List Operand} {R : Unit → State → Prop}
      (h : R () ({ u with stack := stack }.emit "" none op)) :
      Meets (perform op) { u with stack := stack } R :=
    (meets_perform (s := { u with stack := stack }) hw ho).mpr h
  simp only [closeRegion, meets_bind, meets_get, meets_ite, meets_truncate]
  refine ⟨fun hd => hperform ⟨.exit, .dead hd, rfl⟩, fun hd => ?_⟩
  rw [Bool.not_eq_true] at hd
  cases hr : r.result
  case none =>
    simp only [meets_bind, meets_pure, meets_truncate]
    exact hperform ⟨.jump next, .live hd (by rw [hr]; exact .nothing), rfl⟩
  case some res =>
    simp only [meets_bind, meets_map, meets_truncate]
    refine (popResult_meets hk hr).mono fun res' t h => ?_
    obtain ⟨hh, ht⟩ := h
    subst ht
    exact hperform ⟨.jump next, .live hd hh, by rw [State.below_self]⟩

namespace State.Ends

variable (he : s.Ends r next op after)
include he

theorem isTerminator : op.isTerminator = true := by
  cases he <;> rfl

theorem eq_of_mem_successors {b : BlockId} (hb : b ∈ op.successors) : b = next := by
  cases he <;> simp [Op.successors] at hb
  exact hb

theorem nodup_successors : op.successors.Nodup := by
  cases he <;> simp [Op.successors]

-- Only dead code may end without the result of the function.
theorem fits (hv : s.Valid cx dom calls) : s.function.Fits dom s.block none op := by
  cases he
  case live => exact .jump
  case dead hd =>
    refine .inr fun hreach => ?_
    simp [hv.live_iff.mpr hreach] at hd

end State.Ends

section End

variable (hv : s.Valid cx dom calls) (hr : s.regions = r :: outer)
variable (he : s.Ends r r.continuation op after)
include hv hr he

theorem State.Ends.isSealed :
    s.function.Sealed dom s.block op [] (s.function.emit s.block "" none op) dom := by
  refine .close hv.draft hv.scope hv.isOpen he.isTerminator he.nodup_successors (fun b hb => ?_)
    (he.fits hv)
  rw [he.eq_of_mem_successors hb]
  exact hv.target_continuation (by simp [hr])

-- The region as it is when all of its exits are known.
theorem State.Ends.exists_region : ∃ r' : Region, r'.Valid (s.function.emit s.block "" none op) dom ∧
    r'.frame = r.frame ∧ r'.result = after ∧ (r'.IsIf → r.IsIf) := by
  have hs := State.Ends.isSealed hv hr he
  have hm : r ∈ s.regions := by simp [hr]
  cases he
  case live hl hh =>
    exact ⟨r.exit s.block after, hv.region_exit hl hm hs (by simp [Op.successors]) hh,
      Region.exit_frame hh, rfl, Region.isIf_exit_iff.mp⟩
  case dead hd =>
    have hp := (hv.regions r hm).pass hs (hv.isOpen_continuation hm).created
      (hv.continuation_ne_block hm) (by simp [Op.successors])
    exact ⟨r, hp, rfl, rfl, id⟩

theorem State.Ends.valid_resume : (s.resume r outer op).Valid cx dom calls := by
  have ⟨r', hr', hf, _⟩ := State.Ends.exists_region hv hr he
  have hs := State.Ends.isSealed hv hr he
  refine hv.resume (t := s.resume r outer op) hr hs hr' hf (fun o ho hb => ?_) rfl rfl rfl rfl
  have hnd := (List.nodup_cons.mp (hr ▸ hv.nodup)).2
  exact (List.nodup_cons.mp hnd).1 (he.eq_of_mem_successors hb ▸ List.mem_map_of_mem ho)

end End

theorem State.Valid.yield {name : String} {type : Scalar} (hv : s.Valid cx dom calls)
    (h : (s.emit name (some type) op).Valid cx dom calls) :
    (s.yield name type op).Valid cx dom calls :=
  h.stack_cons ⟨type, s.usable_emit hv⟩

-- The result of a region comes through a phi of all the exits.
theorem State.Valid.receive (hv : s.Valid cx dom calls) (hr : r.Valid s.function dom)
    (hb : s.block = r.continuation) (hi : r.result.isSome → ¬r.IsIf)
    (hh : ∀ o ∈ s.regions, ∀ h, o.kind = .loop h → r.continuation ≠ h) :
    (s.receive r.result).Valid cx dom calls := by
  cases hres : r.result
  case none => exact hv
  case some res =>
    simp only [State.receive]
    split
    case isTrue => exact hv.yield (hv.emit_plain ⟨rfl, rfl, rfl⟩ .const)
    case isFalse =>
      have hv := hv.journal (s.journal.record .phiCreated)
      have ⟨hn, hiff⟩ := hr.merged hres (hi (by simp [hres]))
      have hin := hr.incoming hres
      refine hv.yield <| hv.emit ?draft rfl (.phi fun i hi => (hin i hi).2) ?headers
        (hv.calls_emit rfl)
      case draft =>
        refine hv.draft.emit_phi hv.isOpen (hb ▸ hr.empty) (hb ▸ hr.not_entry) hn (hb ▸ hiff) ?_
        intro p hp
        have ⟨i, hi, he⟩ := List.mem_map.mp hp
        exact he ▸ (hin i hi).1
      case headers =>
        intro o ho h hk
        refine hv.draft.noPhi_emit_of_ne ?_ (hv.regions o ho |>.header hk).2.1
        exact fun he => hh o ho h hk (he.trans hb).symm

-- An `if` that has a result must have an `else`.
theorem Region.not_isIf_of_result {r' : Region} (hf : r'.frame = r.frame) (hif : r'.IsIf → r.IsIf)
    (hi : r.IsIf → r.result = none) (hs : r'.result.isSome) : ¬r'.IsIf := by
  intro hi'
  have ht : r'.result.map Result.type = r.result.map Result.type := congrArg Frame.type hf
  rw [hi (hif hi')] at ht
  simp [Option.map_eq_none_iff.mp ht] at hs

theorem State.Ends.valid (hv : s.Valid cx dom calls) (hr : s.regions = r :: outer)
    (hi : r.IsIf → r.result = none) (he : s.Ends r r.continuation op after) :
    ((s.resume r outer op).receive after).Valid cx dom calls := by
  have ⟨r', hr', hf, ha, hif⟩ := State.Ends.exists_region hv hr he
  have hc := Region.continuation_congr hf
  rw [← ha]
  refine (State.Ends.valid_resume hv hr he).receive hr' hc.symm
    (Region.not_isIf_of_result hf hif hi) fun o ho h hk => ?_
  rw [hc]
  exact hv.headers o (by simp [hr, show o ∈ outer from ho]) h hk r (by simp [hr])

-- Only the operands, their values and the liveness of the code matter for how it ends.
theorem State.Ends.congr (hk : s.stack = u.stack) (hb : s.block = u.block)
    (hd : s.isDead = u.isDead) (hv : ∀ v, s.function.value? v = u.function.value? v)
    (he : u.Ends r next op after) : s.Ends r next op after := by
  cases he
  case dead h => exact .dead (hd.trans h)
  case live h hh =>
    refine .live (hd.trans h) ?_
    generalize r.result = before at hh
    cases hh
    case nothing => exact .nothing
    case value v res hs ht =>
      rw [← hb]
      exact .value (hk ▸ hs) (by simpa only [Function.HasType, hv] using ht)

theorem pushResult_meets {res : Result} {Q : Unit → State → Prop} (hw : s.function.WellFormed)
    (ho : s.function.Open s.block) :
    Meets (pushResult res) s Q ↔ Q () (s.receive (some res)) := by
  have hdef {j name type op} {R : ValueId → State → Prop} :
      Meets (define name type op) { s with journal := j } R ↔
        R s.function.freshValue ({ s with journal := j }.emit name (some type) op) :=
    meets_define (s := { s with journal := j }) hw ho
  simp only [pushResult, State.receive]
  split
  case isTrue => exact meets_bind.trans hdef
  case isFalse => exact meets_bind.trans (meets_note.trans (meets_bind.trans hdef))

theorem close_meets (hv : s.Valid cx dom calls) :
    Meets close s fun _ t => s.regions = [] ∧ t = { s with isEnded := true } ∨
      ∃ r outer op after, s.regions = r :: outer ∧ (r.IsIf → r.result = none) ∧
        s.Ends r r.continuation op after ∧ t = (s.resume r outer op).receive after := by
  simp only [close, meets_bind, meets_get]
  split
  case h_1 hr => exact .inl ⟨hr, rfl⟩
  case h_2 r outer hr =>
    split
    case h_1 => trivial
    case h_2 hi =>
      let u : State := { s with regions := outer }
      have hw : u.function.WellFormed := hv.draft.wf
      simp only [meets_bind, meets_set]
      refine (closeRegion_meets (u := u) hw hv.isOpen hv.stack).mono fun after t h => ?_
      obtain ⟨op, he, ht⟩ := h
      have he : s.Ends r r.continuation op after := .congr (u := u) rfl rfl rfl (fun _ => rfl) he
      have hvr := State.Ends.valid_resume hv hr he
      subst ht
      have hif : r.IsIf → r.result = none := by
        rintro ⟨breaks, hk⟩
        cases hres : r.result
        case none => rfl
        case some res => exact absurd hres (hi breaks res hk)
      cases after
      case none => exact .inr ⟨r, outer, op, none, hr, hif, he, rfl⟩
      case some =>
        refine (pushResult_meets hvr.draft.wf hvr.isOpen).mpr ?_
        exact .inr ⟨r, outer, op, _, hr, hif, he, rfl⟩

theorem retargetAll_eq_ok {sources : List BlockId} {old new : BlockId} {g : Function}
    (h : sources.forM (Function.retarget · old new) s.function = .ok () g) :
    retargetAll sources old new s = .ok () { s with function := g } := by
  induction sources generalizing s
  case nil =>
    cases h
    rfl
  case cons q sources hi =>
    rw [List.forM_eq_forM, List.forM_cons] at h
    obtain ⟨_, f, hq, h⟩ := exists_of_bind_eq_ok h
    rw [retargetAll, List.forM_eq_forM, List.forM_cons, bind_eq_of_eq_ok (edit_eq_of_ok hq)]
    exact hi (s := { s with function := f }) h

section Else

variable {breaks : List BlockId} (hv : s.Valid cx dom calls) (hr : s.regions = r :: outer)
variable (he : s.Ends r s.function.freshBlock op after)
include hv hr he

theorem State.Ends.sealed_turn :
    s.function.Sealed dom s.block op [s.function.freshBlock] (s.grow.emit "" none op).function
      (dom.extend s.function.freshBlock (r.base dom)) := by
  have hm : r ∈ s.regions := by simp [hr]
  refine hv.behind (hv.within r hm).scope (fun e hent => ⟨?_, ?_⟩) he.isTerminator
    he.nodup_successors (fun b hb => .inl (he.eq_of_mem_successors hb)) (he.fits hv)
  · exact hv.scope.root (hv.isOpen_continuation hm).created hent
  · rintro rfl
    exact (hv.regions r hm).not_entry hent

theorem State.Ends.exists_moved (hk : r.kind = .if_ breaks) :
    ∃ g, breaks.forM (Function.retarget · r.continuation s.function.freshBlock)
        (s.grow.emit "" none op).function = .ok () g ∧
      (s.grow.emit "" none op).function.Moved (dom.extend s.function.freshBlock (r.base dom))
        r.continuation s.function.freshBlock breaks g := by
  refine hv.exists_moved hr hk (State.Ends.sealed_turn hv hr he) Scope.extend_self fun hb => ?_
  have hm : r ∈ s.regions := by simp [hr]
  exact Function.ne_freshBlock (hv.isOpen_continuation hm).created (he.eq_of_mem_successors hb)

end Else

theorem startElse_meets (hv : s.Valid cx dom calls) :
    Meets startElse s fun _ t => ∃ r outer breaks op after g, s.regions = r :: outer ∧
      r.kind = .if_ breaks ∧ s.Ends r s.function.freshBlock op after ∧
      breaks.forM (Function.retarget · r.continuation s.function.freshBlock)
        (s.grow.emit "" none op).function = .ok () g ∧
      t = s.turn r outer after g := by
  simp only [startElse, meets_bind, meets_get]
  split
  case h_1 => trivial
  case h_2 r outer hr =>
    split
    case h_2 => trivial
    case h_1 breaks hk =>
      let u : State := { s with regions := outer }.grow
      simp only [meets_bind, meets_set, meets_newBlock]
      have hw : u.function.WellFormed := hv.draft.wf.addBlock
      have hst : ∀ o ∈ u.stack, o.Usable u.function dom u.block := fun o ho =>
        (hv.stack o ho).mono .addBlock subset_rfl
      refine (closeRegion_meets hw (State.open_grow hv.isOpen) hst).mono fun after t h => ?_
      obtain ⟨op, he, rfl⟩ := h
      have he : s.Ends r s.function.freshBlock op after :=
        .congr (u := u) rfl rfl rfl (fun _ => rfl) he
      obtain ⟨g, hg, _⟩ := State.Ends.exists_moved hv hr he hk
      have hm : retargetAll breaks r.continuation s.function.freshBlock
          ({ u with stack := u.below r.height }.emit "" none op) = _ := retargetAll_eq_ok hg
      simp only [Meets, hm]
      exact ⟨r, outer, breaks, op, after, g, hr, hk, he, hg, rfl⟩

theorem State.Ends.valid_turn {breaks : List BlockId} {g : Function} (hv : s.Valid cx dom calls)
    (hr : s.regions = r :: outer) (hk : r.kind = .if_ breaks)
    (he : s.Ends r s.function.freshBlock op after)
    (hg : breaks.forM (Function.retarget · r.continuation s.function.freshBlock)
      (s.grow.emit "" none op).function = .ok () g) :
    ∃ dom', (s.turn r outer after g).Valid cx dom' calls := by
  have ⟨g', hg', hm⟩ := State.Ends.exists_moved hv hr he hk
  cases hg.symm.trans hg'
  exact ⟨_, hv.turn hr hk (State.Ends.sealed_turn hv hr he) he hm Scope.extend_self rfl rfl rfl rfl
    rfl⟩

end StackCompiler.Lowering.Direct
