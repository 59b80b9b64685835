import StackCompiler.Proofs.Simulation.Course

-- Where the edges of a region's exits lead in the finished function, and the state in which the code
-- behind the region was lowered.

namespace StackCompiler

namespace Ssa.Op

-- The instruction with all edges to `old` moved over to `new`.
def move (old new : BlockId) : Op → Op
  | jump target => jump (if target = old then new else target)
  | branch lhs cond rhs yes no =>
    branch lhs cond rhs (if yes = old then new else yes) (if no = old then new else no)
  | op => op

variable {op op' : Op} {old new : BlockId}

@[simp]
theorem move_self : op.move old old = op := by
  cases op <;> simp [move]
  all_goals grind

-- There is at most one edge to move.
theorem eq_move_of_retarget? (h : op.retarget? old new = some op') (hn : op.successors.Nodup) :
    op' = op.move old new := by
  cases op <;> simp [retarget?, move, successors] at h hn ⊢
  all_goals grind

theorem mem_successors_move (h : old ∈ op.successors) : new ∈ (op.move old new).successors := by
  cases op <;> simp [move, successors] at h ⊢
  all_goals grind

end Ssa.Op

namespace Lowering.Direct

open Bytecode (Instruction)
open Ssa (BlockId Function Op Scope ValueId)

variable {cx : Context} {f g : Function} {dom : Scope} {calls : List Nat} {s t : State}
variable {p : BlockId} {op : Op} {r r' : Region} {outer : List Region} {after : Option Result}
variable {v : Option ValueId} {code : List Instruction}

-- The value that block `p` brings to a result, if there is a result.
inductive Takes (p : BlockId) : Option Result → Option ValueId → Prop
  | nothing : Takes p none none
  | value {res : Result} {v : ValueId} (h : (p, v) ∈ res.incoming) : Takes p (some res) (some v)

-- Where control comes from block `p` to the active block, it finds the operands there and the value
-- that it brings.
inductive State.Receives (t : State) (operands : List Operand) (p : BlockId) : Option ValueId → Prop
  | nothing (hs : t.stack = operands) (hi : t.function.insts t.block = []) :
    Receives t operands p none
  | value {v x : ValueId} {d : Ssa.ValueDef} {incoming : List (BlockId × ValueId)}
    (hs : t.stack = .value x :: operands) (hi : t.function.insts t.block = [x])
    (hd : t.function.value? x = some d) (ho : d.op = .phi incoming) (hv : (p, v) ∈ incoming) :
    Receives t operands p (some v)

-- The state `t` in which code was lowered to which control comes from block `p`.
structure Lands (cx : Context) (f : Function) (p : BlockId) (v : Option ValueId)
    (frames : List Frame) (operands : List Operand) (code : List Instruction) (t : State) : Prop where
  finishes : Finishes cx f code t
  live : t.isDead = false
  frames : t.regions.map Region.frame = frames
  receives : t.Receives operands p v

theorem State.Hands.takes {before : Option Result} (h : s.Hands before after)
    (hv : Takes p before v) : Takes p after v := by
  cases h
  case nothing => exact hv
  case value =>
    cases hv
    case value h => exact .value (List.mem_append_left _ h)

-- What the active block hands over is the top of the stack.
theorem State.Hands.exists_takes {before : Option Result} (h : s.Hands before after) :
    ∃ v, Takes s.block after v ∧ v.isSome = before.isSome ∧
      ∀ x, v = some x → s.stack.head? = some (.value x) := by
  cases h
  case nothing => exact ⟨none, .nothing, rfl, by simp⟩
  case value x _ hs _ => exact ⟨some x, .value (by simp), rfl, by simpa using hs⟩

theorem State.Ends.takes {next : BlockId} (h : s.Ends r next op after) (hv : Takes p r.result v) :
    Takes p after v := by
  cases h
  case live hh => exact hh.takes hv
  case dead => exact hv

theorem Region.Later.takes (h : r.Later f r') (hv : Takes p r.result v) : Takes p r'.result v := by
  have ht : r'.result.map Result.type = r.result.map Result.type := congrArg Frame.type h.frame
  cases hr : r.result <;> rw [hr] at hv ht <;> cases hv
  case none => exact Option.map_eq_none_iff.mp ht ▸ .nothing
  case some res v hv =>
    have ⟨_, hr', hv⟩ := h.brings ⟨res, hr, hv⟩
    exact hr' ▸ .value hv

theorem Region.map_frame_of_later {l l' : List Region} (h : List.Forall₂ (Later f) l l') :
    l'.map frame = l.map frame := by
  induction h
  case nil => rfl
  case cons h _ hi => simp [h.frame, hi]

section End

variable (hv : s.Valid cx dom calls) (hr : s.regions = r :: outer)
include hv hr

theorem State.Valid.insts_resume :
    (s.resume r outer op).function.insts (s.resume r outer op).block = [] :=
  have hm : r ∈ s.regions := by simp [hr]
  (Function.emit_insts_of_ne (hv.continuation_ne_block hm)).trans (hv.regions r hm).empty

variable (he : s.Ends r r.continuation op after)
include he

theorem State.Ends.receives (ht : Takes p after v) :
    ((s.resume r outer op).receive after).Receives (s.below r.height) p v := by
  cases ht
  case nothing => exact .nothing rfl (hv.insts_resume hr)
  case value res x hx =>
    have hne : res.incoming.isEmpty = false := by
      rw [List.isEmpty_eq_false_iff]
      exact List.ne_nil_of_mem hx
    have hc := (State.Ends.valid_resume hv hr he).isOpen.created
    simp only [State.receive, hne, Bool.false_eq_true, ↓reduceIte]
    refine .value rfl ?_ Function.emit_value?_freshValue rfl hx
    exact (Function.emit_insts_self hc).trans (by rw [hv.insts_resume hr]; rfl)

theorem State.Ends.grows :
    s.function.Grows ((s.resume r outer op).receive after).function := by
  have hu := State.Ends.valid_resume hv hr he
  have hg : s.function.Grows (s.resume r outer op).function := .emit hv.isOpen.created
  cases after
  case none => exact hg
  case some res =>
    have ⟨_, _, _, hf⟩ := (s.resume r outer op).receive_function res
    exact hf ▸ hg.trans (.emit hu.isOpen.created)

end End

-- Block `p` has left the region `k` levels out, with value `v` if there is a result.
structure State.Leaving (s : State) (k : Nat) (r : Region) (p : BlockId) (op : Op)
    (v : Option ValueId) : Prop where
  region : s.regions[k]? = some r
  terminator : s.function.terminator? p = some op
  reaches : s.function.Reaches p
  edge : r.continuation ∈ op.successors
  takes : Takes p r.result v
  inner : ∀ o ∈ s.regions.take k, ¬o.Breaks p
  outer : ∀ o ∈ s.regions.drop (k + 1), ¬o.Breaks p

namespace State

variable {k : Nat}

theorem Unwinds.regions_eq (hu : s.Unwinds k t) (hr : s.regions[k]? = some r) :
    ∃ r' outer, t.regions = r' :: outer ∧ r.Later s.function r' ∧
      List.Forall₂ (Region.Later s.function) (s.regions.drop (k + 1)) outer := by
  have ⟨hk, hr⟩ := List.getElem?_eq_some_iff.mp hr
  have hl := hu.regions
  rw [List.drop_eq_getElem_cons hk, hr] at hl
  have ⟨r', outer, h, hl, ht⟩ := List.forall₂_cons_left_iff.mp hl
  exact ⟨r', outer, ht, h, hl⟩

-- The end of the region does not change that.
theorem Leaving.unwind (h : s.Leaving k r p op v) (hu : s.Unwinds k t) :
    ∃ r' outer, t.regions = r' :: outer ∧ r.Later s.function r' ∧
      outer.map Region.frame = (s.regions.drop (k + 1)).map Region.frame ∧
      t.Leaving 0 r' p op v := by
  have ⟨r', outer, ht, hl, hlo⟩ := hu.regions_eq h.region
  refine ⟨r', outer, ht, hl, Region.map_frame_of_later hlo, ?_⟩
  exact {
    region := by simp [ht]
    terminator := hu.becomes.terminator h.terminator h.inner
    reaches := hu.becomes.reaches h.reaches
    edge := Region.continuation_congr hl.frame ▸ h.edge
    takes := hl.takes h.takes
    inner := by simp
    outer := fun o ho hb => by
      have ho : o ∈ outer := by simpa [ht] using ho
      have ⟨o', ho', hl⟩ := Region.exists_later_of_mem hlo ho
      exact h.outer o' ho' (hl.closed h.terminator hb) }

-- If another branch follows, the edge leads to its continuation.
theorem Leaving.turn {breaks : List BlockId} {op' : Op} (h : s.Leaving 0 r p op v)
    (hv : s.Valid cx dom calls) (hr : s.regions = r :: outer) (hk : r.kind = .if_ breaks)
    (hp : p ∈ breaks) (he : s.Ends r s.function.freshBlock op' after)
    (hg : breaks.forM (Function.retarget · r.continuation s.function.freshBlock)
      (s.grow.emit "" none op').function = .ok () g) :
    (s.turn r outer after g).Leaving 0
      { r with kind := .else_, continuation := s.function.freshBlock, result := after } p
      (op.move r.continuation s.function.freshBlock) v where
  region := rfl
  terminator := by
    have hs := Ends.sealed_turn hv hr he
    have ⟨g', hg', hm⟩ := Ends.exists_moved hv hr he hk
    cases hg.symm.trans hg'
    have ⟨op₁, op₂, h₁, h₂, ht⟩ := hm.retargeted hp
    cases h₁.symm.trans (hs.grows.terminator? hs.draft.wf h.terminator).2
    have hn := Function.successors_of_terminator? h.terminator ▸ hv.draft.linked.nodup p
    exact Op.eq_move_of_retarget? h₂ hn ▸ ht
  reaches := (he.moves_turn hv hr hk hg).becomes.reaches h.reaches
  edge := Op.mem_successors_move h.edge
  takes := he.takes h.takes
  inner := by simp
  outer o ho := h.outer o (by simpa [hr, State.turn] using ho)

end State

section Turn

variable {breaks : List BlockId} (he : s.Ends r s.function.freshBlock op after)
variable (hk : r.kind = .if_ breaks)
include he hk

theorem State.Ends.frame_turn {b : BlockId} :
    ({ r with kind := .else_, continuation := b, result := after } : Region).frame =
      { r.frame with continuation := b } := by
  have ht : after.map Result.type = r.result.map Result.type := by
    cases he
    case live hh => exact hh.type
    case dead => rfl
  simp [Region.frame, hk, ht]

theorem State.Ends.insts_turn (hv : s.Valid cx dom calls) (hr : s.regions = r :: outer)
    (hg : breaks.forM (Function.retarget · r.continuation s.function.freshBlock)
      (s.grow.emit "" none op).function = .ok () g) : g.insts r.continuation = [] := by
  have hs := State.Ends.sealed_turn hv hr he
  have ⟨g', hg', hm⟩ := State.Ends.exists_moved hv hr he hk
  cases hg.symm.trans hg'
  have hmem : r ∈ s.regions := by simp [hr]
  have hc := (hv.isOpen_continuation hmem).created
  rw [hm.insts, hs.insts (hv.continuation_ne_block hmem) (.inl hc)]
  exact (hv.regions r hmem).empty

end Turn

-- The lowering goes on behind a region in a state in which everything is known that leads there.
theorem Finishes.lands_end (h : Finishes cx f (.end_ :: code) s) (hp : s.Leaving 0 r p op v) :
    f.terminator? p = some op ∧ ∃ t, t.block = r.continuation ∧
      Lands cx f p v ((s.regions.drop 1).map Region.frame) (s.below r.height) code t := by
  obtain ⟨_, j, dom, calls, t, hv, hx, h⟩ := h.of_cons
  rcases (close_meets hv).of_ok hx with ⟨hnil, _⟩ | ⟨r₁, outer, op₁, after, hr, hi, he, ht₁⟩
  · have := hp.region
    simp [show s.regions = [] from hnil] at this
  · have hr : s.regions = r₁ :: outer := hr
    obtain rfl : r₁ = r := by simpa [hr] using hp.region
    have hb : t.block = r₁.continuation := by simp [ht₁, State.resume]
    have hto : t.regions = outer := by simp [ht₁, State.resume]
    obtain ⟨_, _, hvt⟩ := h.valid
    have hg : s.function.Grows t.function := ht₁ ▸ he.grows hv hr
    have ht := (hg.terminator? hvt.draft.wf hp.terminator).2
    refine ⟨h.becomes.terminator ht ?_, t, hb, h, ?_, by simp [hto, hr], ?_⟩
    · simpa [hto, hr] using hp.outer
    · refine hvt.live_iff.mpr (.step ?_ (Function.successors_of_terminator? ht ▸ hb ▸ hp.edge))
      exact (ht₁ ▸ (he.moves hv hr hi).becomes).reaches hp.reaches
    · exact ht₁ ▸ he.receives hv hr (he.takes hp.takes)

theorem Finishes.isIf_of_else (h : Finishes cx f (.else_ :: code) s) (hr : s.regions = r :: outer) :
    r.IsIf := by
  have ⟨_, j, _, _, _, hv, hx, _⟩ := h.of_cons
  have ⟨r', _, breaks, _, _, _, hr', hk, _⟩ := (startElse_meets hv).of_ok hx
  obtain ⟨rfl, _⟩ : r = r' ∧ _ := by simpa using hr.symm.trans hr'
  exact ⟨breaks, hk⟩

theorem Finishes.result_of_end (h : Finishes cx f (.end_ :: code) s) (hr : s.regions = r :: outer)
    (hi : r.IsIf) : r.result = none := by
  have ⟨_, j, _, _, _, hv, hx, _⟩ := h.of_cons
  rcases (close_meets hv).of_ok hx with ⟨hnil, _⟩ | ⟨r', _, _, _, hr', hn, _⟩
  · simp [hr] at hnil
  · obtain ⟨rfl, _⟩ : r = r' ∧ _ := by simpa using hr.symm.trans hr'
    exact hn hi

-- Every edge out of a region leads to the code behind it.
theorem Finishes.lands {k : Nat} (h : Finishes cx f code s) (hp : s.Leaving k r p op v)
    (hb : r.IsIf → r.Breaks p) :
    ∃ code' t, Stack.behind k code = some code' ∧
      f.terminator? p = some (op.move r.continuation t.block) ∧ s.function.insts t.block = [] ∧
      Lands cx f p v ((s.regions.drop (k + 1)).map Region.frame) (s.below r.height) code' t := by
  have ⟨_, _, hv₀⟩ := h.valid
  have ⟨hk, _⟩ := List.getElem?_eq_some_iff.mp hp.region
  have ⟨i, code₁, s₁, hor, hseek, h₁, hu⟩ := h.seek hk
  have ⟨r₁, outer, hr, hl, hf, hp₁⟩ := hp.unwind hu
  have hc := Region.continuation_congr hl.frame
  have hh := Region.height_congr hl.frame
  have hbelow := hu.below hp.region r.height (Nat.le_refl _)
  rcases hor with rfl | rfl
  case inr =>
    have ⟨ht, t, hb, hlands⟩ := h₁.lands_end hp₁
    refine ⟨code₁, t, by simp [Stack.behind, hseek], by simpa [hb, hc] using ht, ?_, ?_⟩
    · rw [hb, hc]
      exact (hv₀.regions r (List.mem_of_getElem? hp.region)).empty
    · simpa [hr, hf, hh, hbelow] using hlands
  case inl =>
    have ⟨_, j, dom, calls, s₂, hv, hx, h₂⟩ := h₁.of_cons
    obtain ⟨r', outer', breaks, op', after, g, hr', hkind, he, hg, rfl⟩ :=
      (startElse_meets hv).of_ok hx
    obtain ⟨rfl, rfl⟩ : r₁ = r' ∧ outer = outer' := by simpa using hr.symm.trans hr'
    have ⟨_, hkind', hpb⟩ := hl.breaks (hb (hl.isIf.mp ⟨breaks, hkind⟩))
    cases hkind.symm.trans hkind'
    have hp₂ := State.Leaving.turn (s := { s₁ with journal := j }) { hp₁ with } hv hr hkind hpb he hg
    have ⟨i₂, code₂, s₃, hor, hseek₂, h₃, hu₂⟩ := h₂.seek (k := 0) (by simp [State.turn])
    have ⟨r₃, outer₃, hr₃, hl₃, hf₃, hp₃⟩ := hp₂.unwind hu₂
    rcases hor with rfl | rfl
    case inl =>
      have ⟨breaks, hb⟩ := hl₃.isIf.mp (h₃.isIf_of_else hr₃)
      simp at hb
    case inr =>
      have ⟨ht, t, hb, hlands⟩ := h₃.lands_end hp₃
      have hc₃ := Region.continuation_congr hl₃.frame
      have hh₃ := Region.height_congr hl₃.frame
      refine ⟨code₂, t, by simp [Stack.behind, hseek, hseek₂], ?_, ?_, ?_⟩
      · rw [ht, hb, hc₃, hc]
      · -- The block was not there yet.
        rw [hb, hc₃]
        exact Function.insts_eq_nil_of_not_created (Nat.not_lt_of_le hu.becomes.size)
      · have hfl : r.height ≤ ({ s₁ with journal := j } : State).floor := by
          simp [State.floor, hr, hh]
        have hb₂ := (he.moves_turn hv hr hkind hg).below r.height hfl
        have hb₃ := hu₂.below hp₂.region r.height (Nat.le_of_eq hh.symm)
        have hh₃ : r₃.height = r.height := hh₃.trans hh
        have hf₃ : outer₃.map Region.frame = outer.map Region.frame := hf₃
        rw [hh₃, hb₃, hb₂, show ({ s₁ with journal := j } : State).below _ = _ from hbelow] at hlands
        simpa [hr₃, hf₃, hf] using hlands

-- The edge that an `if` takes when its condition fails leads to the other branch, or behind the
-- `if` when there is none.
theorem Finishes.lands_other (h : Finishes cx f code s) (hr : s.regions = r :: outer) (hi : r.IsIf)
    (ht : s.function.terminator? p = some op) (hp : s.function.Reaches p)
    (he : r.continuation ∈ op.successors) (hn : ∀ o ∈ s.regions, ¬o.Breaks p) :
    ∃ code' t, t.block = r.continuation ∧
      ((∃ b, Stack.seek 0 code = .else_ :: code' ∧
          Lands cx f p none ({ r.frame with continuation := b } :: outer.map Region.frame)
            (s.below r.height) code' t) ∨
        Stack.seek 0 code = .end_ :: code' ∧
          Lands cx f p none (outer.map Region.frame) (s.below r.height) code' t) := by
  have ⟨i, code₁, s₁, hor, hseek, h₁, hu⟩ := h.seek (k := 0) (by simp [hr])
  have hr₀ : s.regions[0]? = some r := by simp [hr]
  have ⟨r₁, outer₁, hr₁, hl, hlo⟩ := hu.regions_eq hr₀
  have hc := Region.continuation_congr hl.frame
  have hh := Region.height_congr hl.frame
  have hbelow := hu.below hr₀ r.height (Nat.le_refl _)
  have hf : outer₁.map Region.frame = outer.map Region.frame := by
    simpa [hr] using Region.map_frame_of_later hlo
  have hn₁ : ∀ o ∈ s₁.regions, ¬o.Breaks p := fun o ho hb => by
    have ⟨o', ho', hl⟩ := Region.exists_later_of_mem hu.regions ho
    exact hn o' ho' (hl.closed ht hb)
  have ht := hu.becomes.terminator ht (by simp)
  have hp := hu.becomes.reaches hp
  rcases hor with rfl | rfl
  case inr =>
    have hp₁ : s₁.Leaving 0 r₁ p op none := {
      region := by simp [hr₁]
      terminator := ht
      reaches := hp
      edge := hc ▸ he
      takes := h₁.result_of_end hr₁ (hl.isIf.mpr hi) ▸ .nothing
      inner := by simp
      outer := fun o ho => hn₁ o (List.mem_of_mem_drop ho) }
    have ⟨_, t, hb, hlands⟩ := h₁.lands_end hp₁
    refine ⟨code₁, t, hb.trans hc, .inr ⟨hseek, ?_⟩⟩
    simpa [hr₁, hf, hh, hbelow] using hlands
  case inl =>
    have ⟨_, j, dom, calls, t, hv, hx, h₂⟩ := h₁.of_cons
    obtain ⟨r', outer', breaks, op', after, g, hr', hkind, hends, hg, rfl⟩ :=
      (startElse_meets hv).of_ok hx
    obtain ⟨rfl, rfl⟩ : r₁ = r' ∧ outer₁ = outer' := by simpa using hr₁.symm.trans hr'
    have hm := (hends.moves_turn hv hr₁ hkind hg).becomes
    refine ⟨code₁, _, hc, .inl ⟨s₁.function.freshBlock, hseek, h₂, ?live, ?frames, ?receives⟩⟩
    case live =>
      have ⟨_, _, hvt⟩ := h₂.valid
      have ht := hm.terminator ht fun o ho => hn₁ o (List.mem_of_mem_take ho)
      have he : r₁.continuation ∈ op.successors := hc ▸ he
      exact hvt.live_iff.mpr (.step (hm.reaches hp) (Function.successors_of_terminator? ht ▸ he))
    case frames =>
      simp only [State.turn, List.map_cons, hends.frame_turn hkind, hl.frame, hf]
    case receives =>
      refine .nothing ?_ (hends.insts_turn hkind hv hr₁ hg)
      exact hh ▸ hbelow

end Lowering.Direct

end StackCompiler
