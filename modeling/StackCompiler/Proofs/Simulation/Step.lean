import StackCompiler.Proofs.Simulation.Control

-- The lowered code does what the stack code does, one instruction after the other.

namespace StackCompiler

theorem Ssa.Function.Begins.trans {e f g : Function} (h₁ : e.Begins f) (h₂ : f.Begins g) :
    e.Begins g where
  keeps := h₁.keeps.trans h₂.keeps
  value hd ht := h₂.value (h₁.value hd ht) ht
  insts b := (h₁.insts b).trans (h₂.insts b)

namespace Lowering.Direct

open Bytecode (Instruction Module Signature)
open Ssa (BlockId Function Op Scope ValueId)

variable {I : Interpretation} {cx : Context} {f : Function} {dom dom' : Scope} {calls calls' : List Nat}
variable {s t u : State} {c : Stack.Config I} {e : Ssa.Config I} {op : Op} {m : Module}
variable {sig : Signature} {code : List Instruction} {type : Bytecode.BlockType} {depth : Nat}
variable {lhs rhs : ValueId} {cond : Comparison} {ty : Scalar} {result : Option Result}

-- Both machines return the same.
theorem Agrees.finish {e' : Ssa.Config I} {v : ValueId} {d : Ssa.ValueDef} (ha : Agrees cx f s c e)
    (hd : cx.Describes m sig) (hy : s.Yields cx op) (henv : e'.env = e.env) (ho : d.op = op) :
    ∃ r, c.finish sig = some (.halt r) ∧ e'.execute f.trimmed v d = some (pure (.halt r)) := by
  have hres := hd.result
  cases hy
  case nothing hr =>
    have hn : sig.results = [] := by
      rw [hr] at hres
      unfold Bytecode.Signature.result at hres
      split at hres <;> simp_all
    exact ⟨none, by simp [Stack.Config.finish, hn], by simp [Ssa.Config.execute, ho]⟩
  case value ty w hr hs _ =>
    obtain ⟨type, hn⟩ : ∃ type, sig.results = [type] := by
      rw [hr] at hres
      unfold Bytecode.Signature.result at hres
      split at hres <;> simp_all
    obtain ⟨rest, hs⟩ : ∃ rest, s.stack = .value w :: rest := List.head?_eq_some_iff.mp hs
    obtain ⟨x, stack, hc, hx, _⟩ := ha.pop_value hs
    have hx : e'.read w = some x.value := read_eq (henv ▸ hx)
    exact ⟨some x.value, by simp [Stack.Config.finish, hn, hc, Stack.popValue],
      by simp [Ssa.Config.execute, ho, hx]⟩

theorem follows_halt {r : Option I.Value} {Rel : Stack.Config I → Ssa.Config I → Prop} :
    Follows (Ssa.Config.step f.trimmed) Rel (pure (.halt r)) (pure (.halt r)) :=
  fun _ => ⟨0, .halt rfl⟩

-- The value that a region receives is in the block behind it.
theorem State.Ends.closes {r : Region} {outer : List Region} {after : Option Result}
    (hv : s.Valid cx dom calls) (hr : s.regions = r :: outer) (he : s.Ends r r.continuation op after) :
    s.Closes ((s.resume r outer op).receive after) op := by
  have hne := (hv.continuation_ne_block (show r ∈ s.regions by simp [hr])).symm
  have hw := (State.Ends.valid_resume hv hr he).draft.wf
  have hc := hv.isOpen.created
  cases after
  case none => exact .of_emit rfl hc he.isTerminator rfl rfl
  case some res =>
    have ⟨_, _, _, hf⟩ := (s.resume r outer op).receive_function res
    refine .of_emit rfl hc he.isTerminator ?_ ?_
    · exact hf ▸ Function.emit_insts_of_ne hne
    · exact hf ▸ hw.emit_terminator?_of_ne hne

section Instructions

variable (h : Stands cx f dom calls s c e) (hf : f.Complete dom') (hd : cx.Describes m sig)
include h hf

theorem Stands.matched_if (hdec : s.Decides lhs cond rhs u) (hi : Inside cx dom calls s u)
    (hl : u.function.Usable dom u.block lhs ty) (hr : u.function.Usable dom u.block rhs ty)
    (hres : resultOf type = .ok result)
    (ht : Finishes cx f c.code (u.enter (.if_ [])
      (.branch lhs cond rhs u.function.freshBlock u.grow.function.freshBlock) result)) :
    ∃ x, c.execute m sig (.if_ type) = some x ∧ Matched cx f e x := by
  have hm : u.Moves (u.enter _ _ result) 0 _ :=
    hi.valid.moves_enter (.if_ lhs cond rhs) (.branch hl hr)
  have hb : u.function.Begins f := hm.becomes.toBegins.trans ht.becomes.toBegins
  have hreach := hm.becomes.reaches (hi.valid.live_iff.mp (hi.advances.isDead.trans h.live))
  obtain ⟨o, stack, e₀, hstack, ha₀⟩ := h.agrees.exists_decided hdec
  obtain ⟨other, _, hother, _⟩ := (h.of_inside hi hb ha₀).otherwise hf hres ht hreach
  refine ⟨_, by simp [Stack.Config.execute, hstack, hother]; rfl, ?_⟩
  refine (h.agrees.realizes_holds hdec hb (hi.valid.closes_enter _ _ rfl) ht.becomes
    (hi.valid.terminator_enter ht (.if_ lhs cond rhs)) hstack) _ ?_
  rintro taken _ ⟨e₁, ha, rfl⟩
  have h₁ := h.of_inside hi hb ha
  cases taken
  case true => exact .pure ⟨_, h₁.enter hf ht hres (.never rfl)⟩
  case false =>
    obtain ⟨_, w, hother', htr⟩ := h₁.otherwise hf hres ht hreach
    cases hother.symm.trans hother'
    exact .pure ⟨w, htr⟩

-- The end of the first branch of an `if` goes behind the second one.
theorem Stands.matched_else {r : Region} {outer : List Region} {breaks : List BlockId}
    {after : Option Result} {g : Function} (hr : s.regions = r :: outer)
    (hk : r.kind = .if_ breaks) (he : s.Ends r s.function.freshBlock op after)
    (hg : breaks.forM (Function.retarget · r.continuation s.function.freshBlock)
      (s.grow.emit "" none op).function = .ok () g)
    (ht : Finishes cx f c.code (s.turn r outer after g)) :
    ∃ x, c.execute m sig .else_ = some x ∧ Matched cx f e x := by
  have hv := h.valid
  have hmem : r ∈ s.regions := by simp [hr]
  have hm := he.moves_turn hv hr hk hg
  have hs := State.Ends.sealed_turn hv hr he
  obtain ⟨g', hg', hmoved⟩ := State.Ends.exists_moved hv hr he hk
  cases hg.symm.trans hg'
  have hnb : s.block ∉ breaks := fun hb => hv.not_breaks hmem ⟨breaks, hk, hb⟩
  cases he
  case dead hdead => simp [h.live] at hdead
  case live hh =>
    obtain ⟨v, htakes, hsome, htop⟩ := hh.exists_takes
    have hterm : g.terminator? s.block = some (.jump s.function.freshBlock) :=
      (hmoved.kept hnb).trans hs.terminator
    have hc : s.Closes (s.turn r outer after g) (.jump s.function.freshBlock) :=
      .of_emit (g := s.grow.function) (by simp [State.grow]) (State.open_grow hv.isOpen).created rfl
        (hmoved.insts _) (hmoved.kept hnb)
    have hleaving : (s.turn r outer after g).Leaving 0 { r with
        kind := .else_, continuation := s.function.freshBlock, result := after } s.block
        (.jump s.function.freshBlock) v := {
      region := rfl
      terminator := hterm
      reaches := hm.becomes.reaches (hv.live_iff.mp h.live)
      edge := by simp [Op.successors]
      takes := htakes
      inner := by simp
      outer := fun o ho => hv.not_breaks (by simp [hr, show o ∈ outer from ho]) }
    obtain ⟨code', u, hbehind, hterm', hempty, hlands⟩ := ht.lands hleaving (by rintro ⟨_, hi⟩; cases hi)
    have hlands : Lands cx f s.block v (outer.map Region.frame) (s.below r.height) code' u :=
      State.below_self ▸ hlands
    obtain ⟨l, labels, hl, htype, hheight, hlab⟩ := h.cons_label hr
    obtain ⟨stack, hcarry, hstack⟩ := h.agrees.carry (l := l) (by simp [hsome, htype, Region.frame]) htop
    have htr := h.land hf hlands (hv.within r hmem).height (hv.outer_height_le hr)
      (fun _ => List.prefix_nil.mp (hempty ▸ hm.becomes.insts u.block)) hlab (hheight ▸ hstack)
    refine ⟨_, ?_, .jump (h.agrees.step_jump hc ht.becomes hterm' (by simp [Op.move])) htr⟩
    simp [Stack.Config.execute, hl, hbehind, hcarry, Stack.Config.goOn]

theorem Stands.matched_end {r : Region} {outer : List Region} {after : Option Result}
    (hr : s.regions = r :: outer) (hi : r.IsIf → r.result = none)
    (he : s.Ends r r.continuation op after)
    (ht : Finishes cx f c.code ((s.resume r outer op).receive after)) :
    ∃ x, c.execute m sig .end_ = some x ∧ Matched cx f e x := by
  have hv := h.valid
  have hmem : r ∈ s.regions := by simp [hr]
  have hm := he.moves hv hr hi
  have hc := he.closes hv hr
  obtain ⟨_, _, hvt⟩ := ht.valid
  cases he
  case dead hdead => simp [h.live] at hdead
  case live hl hh =>
    obtain ⟨v, htakes, hsome, htop⟩ := hh.exists_takes
    have hlands : Lands cx f s.block v (outer.map Region.frame) (s.below r.height) c.code
        ((s.resume r outer (.jump r.continuation)).receive after) := {
      finishes := ht
      live := hvt.live_iff.mpr <| by
        refine .step (hm.becomes.reaches (hv.live_iff.mp h.live)) ?_
        rw [Function.successors_of_terminator? hc.terminator]
        simp [Op.successors, State.resume]
      frames := by simp [State.resume]
      receives := State.Ends.receives hv hr (.live hl hh) htakes }
    obtain ⟨l, labels, hl, htype, hheight, hlab⟩ := h.cons_label hr
    obtain ⟨stack, hcarry, hstack⟩ := h.agrees.carry (l := l) (by simp [hsome, htype, Region.frame]) htop
    have htr := h.land hf hlands (hv.within r hmem).height (hv.outer_height_le hr)
      (fun _ => by simpa [State.resume] using (hv.regions r hmem).empty) hlab (hheight ▸ hstack)
    have hterm := ht.becomes.terminator hc.terminator fun o ho =>
      hv.not_breaks (by simp [hr, show o ∈ outer by simpa [State.resume] using ho])
    refine ⟨_, ?_, .jump (h.agrees.step_jump hc ht.becomes hterm (by simp [State.resume])) htr⟩
    simp [Stack.Config.execute, hl, hcarry, Stack.Config.goOn]

end Instructions

-- Control leaves the function.
theorem Stands.matched_finish {l : List Region} (h : Stands cx f dom calls s c e)
    (hd : cx.Describes m sig) (hc : s.Closes t op) (hbe : Becomes t.function f l)
    (hl : ∀ r ∈ l, r ∈ s.regions) (hy : s.Yields cx op) :
    ∃ x, c.finish sig = some x ∧ Matched cx f e (pure x) := by
  have hterm := hbe.terminator hc.terminator fun r hr => h.valid.not_breaks (hl r hr)
  have ⟨v, d, ho, hstep⟩ := h.agrees.step_terminator hc hbe hterm
  have henv : Ssa.Config.env { e with rest := [] } = e.env := rfl
  have ⟨r, hfin, hex⟩ := h.agrees.finish (v := v) hd hy henv ho
  exact ⟨_, hfin, _, hstep.trans hex, follows_halt⟩

theorem Stands.branch_eq_finish (h : Stands cx f dom calls s c e) (hd : depth = s.regions.length) :
    c.branch sig depth = c.finish sig := by
  have hl : c.labels.length = s.regions.length := by simpa using h.labels.length_eq
  rw [Stack.Config.branch, if_pos (hd.trans hl.symm)]

theorem State.Returns.exists_pop (hr : s.Returns cx u op) : ∃ rest, u = s.pop rest := by
  rcases hr.popped with he | ⟨_, rest, _, _, he⟩
  · exact ⟨s.stack, he⟩
  · exact ⟨rest, he⟩

theorem Stands.matched_leaves (h : Stands cx f dom calls s c e) (hf : f.Complete dom')
    (hd : cx.Describes m sig) (hleaves : s.Leaves cx depth t) (ht : Finishes cx f c.code t) :
    ∃ x, c.branch sig depth = some x ∧ Matched cx f e (pure x) := by
  have hv := h.valid
  have hm := hleaves.moves hv h.live
  cases hleaves
  case returns u op hdepth hr =>
    rw [h.branch_eq_finish hdepth]
    obtain ⟨rest, rfl⟩ := hr.exists_pop
    refine h.matched_finish hd (.of_emit (g := s.function) rfl hv.isOpen.created
      hr.yields.isTerminator ?_ ?_) ht.becomes (fun _ hm => hm) hr.yields
    all_goals simp [State.die, State.grow, State.emit]
  case exits b rs he =>
    have hc : s.Closes (({ s with regions := rs } : State).emit "" none (.jump b)).die (.jump b) := by
      refine .of_emit (g := s.function) rfl hv.isOpen.created rfl ?_ ?_ <;>
        simp [State.die, State.grow, State.emit]
    obtain ⟨c', u, hbr, hterm, htr⟩ := h.exits hf ht hc sig he (by simp [Op.successors]) rfl hm
    exact ⟨_, hbr, .jump (h.agrees.step_jump hc ht.becomes hterm (by simp [Op.move])) htr⟩

-- Control goes on in a fresh block.
theorem Stands.fall (h : Stands cx f dom calls s c e) (hf : f.Complete dom')
    (ht : Finishes cx f c.code t) (hlive : t.isDead = false) (hs : t.stack = s.stack)
    (hfr : t.regions.map Region.frame = s.regions.map Region.frame)
    (hi : t.function.insts t.block = []) :
    Tracks cx f t c (Ssa.Config.enter f.trimmed { e with rest := [] } t.block) := by
  have hb : s.below s.stack.length = s.stack := by simp [State.below]
  have hlands : Lands cx f s.block none (s.regions.map Region.frame) (s.below s.stack.length)
      c.code t := ⟨ht, hlive, hfr, .nothing (hs.trans hb.symm) hi⟩
  refine h.land hf hlands (Nat.le_refl _) ?_ (by simp) h.labels (by simpa [hb] using h.agrees.stack)
  exact List.forall_mem_map.mpr fun r hr => (h.valid.within r hr).height

section Fork

variable (h : Stands cx f dom calls s c e) (hf : f.Complete dom')
variable (hdec : s.Decides lhs cond rhs u) (hi : Inside cx dom calls s u)
variable (hb : u.function.Begins f) (ht : Finishes cx f c.code t)
include h hf hdec hi hb ht

theorem Stands.matched_exits {b : BlockId} {rs : List Region} (he : u.Exits depth b rs)
    (htt : t = { ({ u with regions := rs } : State).grow.emit "" none
      (.branch lhs cond rhs b u.function.freshBlock) with block := u.function.freshBlock })
    (hm : u.Moves t 0 []) : ∃ x, c.execute m sig (.brIf depth) = some x ∧ Matched cx f e x := by
  have hv := hi.valid
  have hlive : u.isDead = false := hi.advances.isDead.trans h.live
  have hne : u.function.freshBlock ≠ b := (Function.ne_freshBlock (he.isTarget hv hlive).created).symm
  have hc : u.Closes t (.branch lhs cond rhs b u.function.freshBlock) := by
    refine .of_emit (g := u.grow.function) (by simp [State.grow]) (State.open_grow hv.isOpen).created
      rfl ?_ ?_ <;> rw [htt] <;> rfl
  have hsucc : b ∈ (Op.branch lhs cond rhs b u.function.freshBlock).successors := by
    simp [Op.successors]
  have hreg : t.regions = rs := by rw [htt]; rfl
  obtain ⟨o, stack, e₀, hstack, ha₀⟩ := h.agrees.exists_decided hdec
  obtain ⟨c₁, w, hbr, hterm, _⟩ := (h.of_inside hi hb ha₀).exits hf ht hc sig he hsucc hreg hm
  have hterm : f.terminator? u.block = some (.branch lhs cond rhs w.block u.function.freshBlock) := by
    simpa [Op.move, hne] using hterm
  refine ⟨_, by simp [Stack.Config.execute, hstack, hbr]; rfl, ?_⟩
  refine (h.agrees.realizes_holds hdec hb hc ht.becomes hterm hstack) _ ?_
  rintro taken _ ⟨e₁, ha, rfl⟩
  have h₁ := h.of_inside hi hb ha
  cases taken
  case true =>
    obtain ⟨c₂, w', hbr', hterm', htr⟩ := h₁.exits hf ht hc sig he hsucc hreg hm
    cases hbr.symm.trans hbr'
    have hw : w'.block = w.block := by simpa [Op.move, hne] using hterm'.symm.trans hterm
    exact .pure ⟨w', hw ▸ htr⟩
  case false =>
    have htb : t.block = u.function.freshBlock := by rw [htt]
    have hempty : t.function.insts t.block = [] := by
      rw [htb, htt]
      refine (Function.emit_insts_of_ne (Function.ne_freshBlock hv.isOpen.created).symm).trans ?_
      simp [State.grow, Function.insts_freshBlock]
    have htr := h₁.fall hf ht (htt ▸ hlive) (by rw [htt]; rfl) (hreg ▸ he.map_frame) hempty
    exact .pure ⟨t, htb ▸ htr⟩

end Fork

-- A conditional return has a block of its own.
structure ReturnBlock (f : Function) (b : BlockId) (op : Op) (v : ValueId) (d : Ssa.ValueDef) :
    Prop where
  insts : f.insts b = [v]
  value : f.value? v = some d
  op : d.op = op

theorem ReturnBlock.step {b : BlockId} {v : ValueId} {d : Ssa.ValueDef}
    (h : ReturnBlock f b op v d) (hf : f.Complete dom') (hb : f.Reaches b)
    (ho : op.isPhi = false) :
    Ssa.Config.step f.trimmed (e.enter f.trimmed b) =
      Ssa.Config.execute f.trimmed { e with block := b, rest := [] } v d := by
  have hn : f.NoPhi b := by
    intro w d' hw hd'
    obtain rfl : w = v := by simpa [h.insts] using hw
    cases h.value.symm.trans hd'
    exact h.op ▸ ho
  have hdefs : f.defs (f.insts b) = [(v, d)] := by rw [h.insts, Function.defs_cons h.value]; rfl
  rw [Ssa.Config.enter_of_noPhi hf.draft hb hn]
  simp only [Ssa.Config.step, hdefs]

theorem State.Valid.exists_returnBlock {yes : Op} (hv : u.Valid cx dom calls)
    (ht : Finishes cx f code { (u.fork yes).emit "" none op with block := u.grow.function.freshBlock })
    (hop : op.isTerminator = true) :
    ∃ v d, ReturnBlock f u.function.freshBlock op v d := by
  have hne : u.function.freshBlock ≠ u.block := (Function.ne_freshBlock hv.isOpen.created).symm
  have hc : u.function.freshBlock.index < (u.fork yes).function.blocks.size := by
    simp only [State.fork, State.emit, State.grow, Function.emit_size, Function.addBlock_size,
      Function.freshBlock_index]
    omega
  have hi : (u.fork yes).function.insts u.function.freshBlock = [] := by
    refine (Function.emit_insts_of_ne hne).trans ?_
    simp [State.grow, Function.insts_freshBlock]
  have hterm : ((u.fork yes).function.emit u.function.freshBlock "" none op).terminator?
      u.function.freshBlock = some op := by
    rw [Function.emit_terminator?_self hc, if_pos hop]
  obtain ⟨hinsts, _⟩ := ht.becomes.closed hterm
  have hfterm := ht.becomes.terminator hterm fun r hr hbr => by
    obtain ⟨breaks, hk, hb⟩ := hbr
    obtain ⟨_, _, _, _, hp⟩ := (hv.regions r hr).branched hk
    have := Function.created_of_mem_successors ((hp _).mpr (.inr hb))
    simp at this
  obtain ⟨v, d, hlast, hd, ho, _⟩ := Function.terminator?_eq_some_iff.mp hfterm
  have hself : ((u.fork yes).function.emit u.function.freshBlock "" none op).insts
      u.function.freshBlock = [(u.fork yes).function.freshValue] := by
    rw [Function.emit_insts_self hc, hi]
    rfl
  have hinsts := hinsts.trans hself
  rw [hinsts] at hlast
  exact ⟨v, d, by simpa [hinsts] using hlast, hd, ho⟩

theorem Stands.matched_returns (h : Stands cx f dom calls s c e) (hf : f.Complete dom')
    (hdec : s.Decides lhs cond rhs u) (hi : Inside cx dom calls s u) (hb : u.function.Begins f)
    (ht : Finishes cx f c.code t)
    (htt : t = { (u.fork (.branch lhs cond rhs u.function.freshBlock u.grow.function.freshBlock)).emit
      "" none op with block := u.grow.function.freshBlock })
    (hm : u.Moves t 0 []) (hd : cx.Describes m sig) (hdepth : depth = u.regions.length)
    (hy : u.Yields cx op) : ∃ x, c.execute m sig (.brIf depth) = some x ∧ Matched cx f e x := by
  have hv := hi.valid
  have hlive : u.isDead = false := hi.advances.isDead.trans h.live
  have hw := State.wellFormed_grow (State.wellFormed_grow hv.draft.wf)
  have ho := State.open_grow (State.open_grow hv.isOpen)
  have hne : u.block ≠ u.function.freshBlock := Function.ne_freshBlock hv.isOpen.created
  have hc : u.Closes t (.branch lhs cond rhs u.function.freshBlock u.grow.function.freshBlock) := by
    refine .of_emit (g := u.grow.grow.function) (by simp [State.grow]) ho.created rfl ?_ ?_ <;> rw [htt]
    · exact Function.emit_insts_of_ne hne
    · exact (hw.emit ho).emit_terminator?_of_ne hne
  have hreg : t.regions = u.regions := by rw [htt]; rfl
  have hterm := ht.becomes.terminator hc.terminator fun r hr => hv.not_breaks (hreg ▸ hr)
  have hreach : f.Reaches u.function.freshBlock := by
    refine .step (ht.becomes.reaches (hm.becomes.reaches (hv.live_iff.mp hlive))) ?_
    simp [Function.successors_of_terminator? hterm, Op.successors]
  obtain ⟨v, d, hret⟩ := hv.exists_returnBlock (htt ▸ ht) hy.isTerminator
  obtain ⟨o, stack, e₀, hstack, ha₀⟩ := h.agrees.exists_decided hdec
  obtain ⟨r, hfin, _⟩ := ha₀.finish (v := v) hd hy rfl hret.op
  have hbr := ((h.of_inside hi hb ha₀).branch_eq_finish hdepth).trans hfin
  refine ⟨_, by simp [Stack.Config.execute, hstack, hbr]; rfl, ?_⟩
  refine (h.agrees.realizes_holds hdec hb hc ht.becomes hterm hstack) _ ?_
  rintro taken _ ⟨e₁, ha, rfl⟩
  have h₁ := h.of_inside hi hb ha
  cases taken
  case true =>
    have henv : Ssa.Config.env { e₁ with block := u.function.freshBlock, rest := [] } = e₁.env := rfl
    obtain ⟨_, hfin', hex⟩ := ha.finish (v := v) hd hy henv hret.op
    cases hfin.symm.trans hfin'
    have hstep := hret.step (e := { e₁ with rest := [] }) hf hreach (by cases hy <;> rfl)
    exact .step (hstep.trans hex) follows_halt
  case false =>
    have htb : t.block = u.grow.function.freshBlock := by rw [htt]
    have hempty : t.function.insts t.block = [] := by
      have hne' : u.grow.function.freshBlock ≠ u.block :=
        (Function.ne_freshBlock (State.open_grow hv.isOpen).created).symm
      rw [htb, htt]
      refine (Function.emit_insts_of_ne u.freshBlock_ne.symm).trans ?_
      refine (Function.emit_insts_of_ne hne').trans (Function.addBlock_insts.trans ?_)
      exact Function.insts_freshBlock
    have htr := h₁.fall hf ht (htt ▸ hlive) (by rw [htt]; rfl) (by rw [hreg]) hempty
    exact .pure ⟨t, htb ▸ htr⟩

-- Control comes to the end of the body.
theorem Stands.matched_body (h : Stands cx f dom calls s c e) (hd : cx.Describes m sig)
    (ht : s.Concludes cx t) (hf : f = t.function) :
    ∃ x, c.finish sig = some x ∧ Matched cx f e (pure x) := by
  have hv := h.valid
  cases ht
  case dead hdead => simp [h.live] at hdead
  case live u op _ hr =>
    obtain ⟨rest, rfl⟩ := hr.exists_pop
    subst hf
    have hbe : Becomes ((s.pop rest).emit "" none op).function _ [] :=
      .of_extends (.refl _) (hv.draft.wf.emit hv.isOpen)
    exact h.matched_finish hd (.of_emit rfl hv.isOpen.created hr.yields.isTerminator rfl rfl) hbe
      (by simp) hr.yields

-- Nothing follows the end of the body.
theorem Stands.matched_ended (h : Stands cx f dom calls s c e) (hd : cx.Describes m sig)
    (ht : Finishes cx f c.code s) (he : s.isEnded = true) :
    ∃ x, c.finish sig = some x ∧ Matched cx f e (pure x) := by
  cases hc : c.code <;> rw [hc] at ht
  case nil =>
    have ⟨_, _, _, _, hc, hf⟩ := ht.of_nil
    exact h.matched_body hd hc hf
  case cons =>
    have ⟨he', _⟩ := ht.of_cons
    simp [he] at he'

theorem Stands.ended (h : Stands cx f dom calls s c e) :
    Stands cx f dom calls { s with isEnded := true } c e where
  valid := h.valid.congr rfl rfl rfl rfl rfl
  live := h.live
  begins := h.begins
  agrees := { h.agrees with }
  labels := h.labels.congr fun _ _ => rfl

-- Nothing but the code is the same before and behind an instruction that computes.
theorem Stands.tracks {c' : Stack.Config I} {e' : Ssa.Config I} (h : Stands cx f dom calls s c e)
    (ht : Finishes cx f c.code t) (hi : Inside cx dom calls' s t) (hb : Beside cx f t c c' e') :
    Tracks cx f t c' e' where
  finishes := hb.code ▸ ht
  live := hi.advances.isDead.trans h.live
  agrees := hb.agrees
  labels := by
    rw [hi.advances.regions, hb.labels]
    refine h.labels.congr fun frame hm => ?_
    have ⟨r, hr, he⟩ := List.mem_map.mp hm
    exact hi.advances.below _ (he ▸ h.valid.height_le_floor hr)

-- What a step of the stack machine does is matched, or there is nothing to match.
def Progresses (cx : Context) (f : Function) (c : Stack.Config I) (e : Ssa.Config I)
    (x : I.Effect (Stack.Result I)) : Prop :=
  Matched cx f e x ∨ ∃ c', x = pure (.run c') ∧ c'.code = c.code ∧ ∃ s, Tracks cx f s c' e

theorem Stands.advances_of_computes {i : Instruction} (h : Stands cx f dom calls s c e)
    (hd : cx.Describes m sig) (ht : Finishes cx f c.code t) (hi : Inside cx dom calls' s t)
    (hc : s.Computes cx i t) : ∃ x, c.execute m sig i = some x ∧ Progresses cx f c e x := by
  have ⟨x, hx, hor⟩ := hc.answers ht.becomes.toBegins hd h.agrees
  refine ⟨x, hx, ?_⟩
  rcases hor with ⟨y, hy, hfol⟩ | ⟨c', hx', hb⟩
  · exact .inl ⟨y, hy, hfol.mono fun c' e' hb => ⟨t, h.tracks ht hi hb⟩⟩
  · exact .inr ⟨c', hx', hb.code, t, h.tracks ht hi hb⟩

theorem Matched.progresses {x : Option (I.Effect (Stack.Result I))}
    (h : ∃ y, x = some y ∧ Matched cx f e y) : ∃ y, x = some y ∧ Progresses cx f c e y :=
  have ⟨y, hy, hm⟩ := h
  ⟨y, hy, .inl hm⟩

theorem Stands.execute {i : Instruction} (h : Stands cx f dom calls s c e) (hf : f.Complete dom')
    (hd : cx.Describes m sig) (hx : step cx i s = .ok () t) (ht : Finishes cx f c.code t) :
    ∃ x, c.execute m sig i = some x ∧ Progresses cx f c e x := by
  have hv := h.valid
  have hl := h.live
  cases i
  case block type =>
    obtain ⟨res, hres, rfl⟩ := (startBlock_meets hv).of_ok hx
    exact ⟨_, rfl, .inl (h.matched_block hf ht hres)⟩
  case loop type =>
    obtain ⟨res, hres, rfl⟩ := (startLoop_meets hv).of_ok hx
    exact ⟨_, rfl, .inl (h.matched_loop hf ht hres)⟩
  case if_ type =>
    obtain ⟨lhs, cond, rhs, u, res, hpop, hi, ⟨ty, hlhs, hrhs⟩, hres, rfl⟩ :=
      (startIf_meets hv).of_ok hx
    have hdec := (popCondition_decides hv hl).of_ok hpop
    exact Matched.progresses (h.matched_if hf hdec hi hlhs hrhs hres ht)
  case else_ =>
    obtain ⟨r, outer, breaks, op, after, g, hr, hk, he, hg, rfl⟩ := (startElse_meets hv).of_ok hx
    exact Matched.progresses (h.matched_else hf hr hk he hg ht)
  case end_ =>
    rcases (close_meets hv).of_ok hx with ⟨hr, rfl⟩ | ⟨r, outer, op, after, hr, hi, he, rfl⟩
    · have hlab : c.labels = [] := List.length_eq_zero_iff.mp (by simpa [hr] using h.labels.length_eq)
      obtain ⟨x, hfin, hm⟩ := h.ended.matched_ended hd ht rfl
      exact ⟨_, by simp [Stack.Config.execute, hlab, hfin], .inl hm⟩
    · exact Matched.progresses (h.matched_end hf hr hi he ht)
  case br depth =>
    rcases (branch_meets hv).of_ok hx with ⟨hdead, _⟩ | ⟨_, hleaves⟩
    · simp [hl] at hdead
    · obtain ⟨x, hbr, hm⟩ := h.matched_leaves hf hd hleaves ht
      exact ⟨_, by simp [Stack.Config.execute, hbr], .inl hm⟩
  case brIf depth =>
    obtain ⟨lhs, cond, rhs, u, hpop, hi, ⟨ty, hlhs, hrhs⟩, hor⟩ := (branchIf_meets hv).of_ok hx
    have hdec := (popCondition_decides hv hl).of_ok hpop
    rcases hor with ⟨hdead, _⟩ | ⟨hlive, hforks⟩
    · simp [hi.advances.isDead, hl] at hdead
    · have hm := hforks.moves hi.valid hlive hlhs hrhs
      have hb := hm.becomes.toBegins.trans ht.becomes.toBegins
      refine Matched.progresses ?_
      cases hforks
      case exits he => exact h.matched_exits hf hdec hi hb ht he rfl hm
      case returns hdepth hy => exact h.matched_returns hf hdec hi hb ht rfl hm hd hdepth hy
  case return_ =>
    rcases (return_meets hv).of_ok hx with ⟨hdead, _⟩ | ⟨_, hleaves⟩
    · simp [hl] at hdead
    · obtain ⟨x, hbr, hm⟩ := h.matched_leaves hf hd hleaves ht
      rw [h.branch_eq_finish rfl] at hbr
      exact ⟨_, by simp [Stack.Config.execute, hbr], .inl hm⟩
  all_goals
    have hi := (step_inside_meets hv trivial).of_ok hx
    exact h.advances_of_computes hd ht hi ((step_computes hv hl trivial).of_ok hx)

theorem Tracks.stands {j : Journal} (h : Tracks cx f s c e)
    (hv : ({ s with journal := j } : State).Valid cx dom calls) (code : List Instruction) :
    Stands cx f dom calls { s with journal := j } { c with code := code } e where
  valid := hv
  live := h.live
  begins := h.finishes.becomes.toBegins
  agrees := { h.agrees with }
  labels := h.labels.congr fun _ _ => rfl

theorem Tracks.step (h : Tracks cx f s c e) (hf : f.Complete dom) (hd : cx.Describes m sig) :
    ∃ x, c.step m sig = some x ∧ (Matched cx f e x ∨
      ∃ c', x = pure (.run c') ∧ c'.code.length < c.code.length ∧ ∃ s, Tracks cx f s c' e) := by
  have hfin := h.finishes
  cases hc : c.code <;> rw [hc] at hfin
  case nil =>
    have ⟨t, dom, calls, hv, hcon, hft⟩ := hfin.of_nil
    have ⟨x, hx, hm⟩ := (h.stands (j := s.journal) hv []).matched_body hd hcon hft
    have hx : c.finish sig = some x := hx
    exact ⟨_, by simp [Stack.Config.step, hc, hx], .inl hm⟩
  case cons i code =>
    have ⟨_, j, dom, calls, t, hv, hx, ht⟩ := hfin.of_cons
    have ⟨x, hx, hor⟩ := (h.stands hv code).execute hf hd hx ht
    refine ⟨x, by simpa [Stack.Config.step, hc] using hx, hor.imp id ?_⟩
    rintro ⟨c', rfl, hcode, s', htr⟩
    exact ⟨c', rfl, by simp [hcode], s', htr⟩

-- A pause of the single-assignment code uses up stack code.
theorem simulation (hf : f.Complete dom) (hd : cx.Describes m sig) :
    Simulation (Stack.Config.step (I := I) m sig) (Ssa.Config.step f.trimmed)
      (fun c e => ∃ s, Tracks cx f s c e) (fun c => c.code.length) where
  step := fun ⟨_, h⟩ => h.step hf hd

end Lowering.Direct

end StackCompiler
