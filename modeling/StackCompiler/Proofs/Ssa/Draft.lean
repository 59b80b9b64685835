import StackCompiler.Proofs.Ssa.Path

-- Functions under construction: some blocks are still open, but every phi is already final. It
-- stands first in its block and takes one value from each block that leads there.

namespace StackCompiler.Ssa.Function

variable {f : Function} {b p : BlockId} {v : ValueId} {d : ValueDef} {op : Op}
variable {incoming : List (BlockId × ValueId)} {name : String} {type : Option Scalar}

def NoPhi (f : Function) (b : BlockId) : Prop :=
  ∀ {v d}, v ∈ f.insts b → f.value? v = some d → d.op.isPhi = false

theorem noPhi_of_insts_eq_nil (h : f.insts b = []) : f.NoPhi b := by
  intro v d hv
  simp [h] at hv

-- The phi `v` of block `b` is exact about the edges to `b`.
structure Merges (f : Function) (b : BlockId) (v : ValueId) (incoming : List (BlockId × ValueId)) :
    Prop where
  first : (f.insts b).head? = some v
  not_entry : f.entry ≠ some b
  nodup : (incoming.map Prod.fst).Nodup
  mem_iff : ∀ p, p ∈ incoming.map Prod.fst ↔ b ∈ f.successors p
  reached : ∀ p ∈ incoming.map Prod.fst, f.Reaches p

structure Draft (f : Function) : Prop where
  wf : f.WellFormed
  linked : f.Linked
  entry : f.entry.isSome
  phis : ∀ {b v d incoming}, v ∈ f.insts b → f.value? v = some d → d.op = .phi incoming →
    f.Merges b v incoming

-- What an operation has to meet to close block `p`. It leads to blocks that take part in no merge,
-- and makes none reachable but the open ones that it names.
structure Closes (f : Function) (p : BlockId) (op : Op) : Prop where
  isTerminator : op.isTerminator = true
  nodup : op.successors.Nodup
  created : ∀ b ∈ op.successors, b.index < f.blocks.size
  noPhi : ∀ b ∈ op.successors, f.NoPhi b
  ends : f.Reaches p → ∀ b ∈ op.successors, f.Reaches b ∨ f.Open b ∧ b ≠ p

namespace Draft

variable (h : f.Draft)
include h

theorem entry_eq : f.entry = some ⟨0⟩ := by
  have he := h.entry
  rw [h.wf.entry_eq, h.wf.layout_eq, created] at he ⊢
  cases hn : f.blocks.size
  case zero => simp [hn] at he
  case succ n => simp [List.range_succ_eq_map]

theorem addBlock : (f.addBlock name).2.Draft where
  wf := h.wf.addBlock
  linked := h.linked.addBlock
  entry := by simpa [addBlock_entry h.entry] using h.entry
  phis hv hd ho := by
    have hm := h.phis (by simpa using hv) hd ho
    exact {
      first := by simpa using hm.first
      not_entry := by simpa [addBlock_entry h.entry] using hm.not_entry
      nodup := hm.nodup
      mem_iff := by simpa using hm.mem_iff
      reached := fun p hp => (addBlock_reaches_iff h.entry).mpr (hm.reached p hp) }

theorem addParam {type : Scalar} : (f.addParam name type).2.Draft where
  wf := h.wf.addParam
  linked := h.linked.addParam h.wf
  entry := h.entry
  phis {b v d incoming} hv hd ho := by
    have ⟨d', hd'⟩ := h.wf.value?_of_mem_insts hv
    cases (Grows.addParam.value hd').symm.trans hd
    have hm := h.phis hv hd' ho
    exact {
      first := hm.first
      not_entry := hm.not_entry
      nodup := hm.nodup
      mem_iff := fun p => by simpa [h.wf.addParam_successors] using hm.mem_iff p
      reached := fun p hp => h.wf.addParam_reaches_iff.mpr (hm.reached p hp) }

theorem value?_of_emit (hv : v ∈ f.insts b) (hd : (f.emit p name type op).value? v = some d) :
    f.value? v = some d := by
  have ⟨d', hd'⟩ := h.wf.value?_of_mem_insts hv
  rw [emit_value?_of_some hd'] at hd
  exact hd ▸ hd'

theorem noPhi_emit (ho : f.Open p) (hp : op.isPhi = false) (hb : f.NoPhi b) :
    (f.emit p name type op).NoPhi b := by
  intro v d hv hd
  rcases mem_insts_of_emit ho hv with hv | ⟨rfl, _⟩
  · exact hb hv (h.value?_of_emit hv hd)
  · cases emit_value?_freshValue.symm.trans hd
    exact hp

theorem noPhi_emit_of_ne (hp : b ≠ p) (hb : f.NoPhi b) : (f.emit p name type op).NoPhi b := by
  intro v d hv hd
  rw [emit_insts_of_ne hp] at hv
  exact hb hv (h.value?_of_emit hv hd)

theorem emit (ho : f.Open p) (ht : op.isTerminator = false) (hp : op.isPhi = false) :
    (f.emit p name type op).Draft where
  wf := h.wf.emit ho
  linked := h.linked.emit_of_not_isTerminator h.wf ho ht
  entry := h.entry
  phis hv hd he := by
    rcases mem_insts_of_emit ho hv with hv | ⟨rfl, rfl⟩
    · have hm := h.phis hv (h.value?_of_emit hv hd) he
      exact {
        first := emit_head? ho hm.first
        not_entry := hm.not_entry
        nodup := hm.nodup
        mem_iff := by simpa [h.wf.emit_successors_of_not_isTerminator ho ht] using hm.mem_iff
        reached := fun p hp => (h.wf.emit_reaches_iff_of_not_isTerminator ho ht).mpr (hm.reached p hp) }
    · cases emit_value?_freshValue.symm.trans hd
      simp [show op = _ from he, Op.isPhi] at hp

theorem emit_phi (ho : f.Open b) (hi : f.insts b = []) (hm : f.entry ≠ some b)
    (hn : (incoming.map Prod.fst).Nodup)
    (hs : ∀ p, p ∈ incoming.map Prod.fst ↔ b ∈ f.successors p)
    (hr : ∀ p ∈ incoming.map Prod.fst, f.Reaches p) :
    (f.emit b name type (.phi incoming)).Draft where
  wf := h.wf.emit ho
  linked := h.linked.emit_of_not_isTerminator h.wf ho rfl
  entry := h.entry
  phis := by
    intro b₁ v d inc hv hd he
    have hr' {p} : f.Reaches p → (f.emit b name type (.phi incoming)).Reaches p :=
      (h.wf.emit_reaches_iff_of_not_isTerminator ho rfl).mpr
    have hs' (p) : (f.emit b name type (.phi incoming)).successors p = f.successors p :=
      h.wf.emit_successors_of_not_isTerminator ho rfl
    rcases mem_insts_of_emit ho hv with hv | ⟨rfl, rfl⟩
    · have hm := h.phis hv (h.value?_of_emit hv hd) he
      exact {
        first := emit_head? ho hm.first
        not_entry := hm.not_entry
        nodup := hm.nodup
        mem_iff := by simpa [hs'] using hm.mem_iff
        reached := fun p hp => hr' (hm.reached p hp) }
    · cases emit_value?_freshValue.symm.trans hd
      cases he
      exact {
        first := by simp [emit_insts_self ho.created, hi]
        not_entry := hm
        nodup := hn
        mem_iff := by simpa [hs'] using hs
        reached := fun p hp => hr' (hr p hp) }

-- A closed block becomes reachable only if it was so.
theorem reaches_of_emit_reaches (ho : f.Open p) (hc : f.Closes p op) (hb : ¬f.Open b)
    (hr : (f.emit p name type op).Reaches b) : f.Reaches b := by
  rcases (h.wf.emit_reaches_iff ho hc.isTerminator hc.ends).mp hr with hr | ⟨hp, hs⟩
  · exact hr
  · exact (hc.ends hp b hs).resolve_right fun ho => hb ho.1

theorem reaches_emit (ho : f.Open p) (hc : f.Closes p op) (hr : f.Reaches b) :
    (f.emit p name type op).Reaches b :=
  (h.wf.emit_reaches_iff ho hc.isTerminator hc.ends).mpr (.inl hr)

theorem close (ho : f.Open p) (hc : f.Closes p op) : (f.emit p name type op).Draft where
  wf := h.wf.emit ho
  linked := h.linked.emit h.wf ho hc.isTerminator hc.created hc.nodup
  entry := h.entry
  phis := by
    intro b v d inc hv hd he
    rcases mem_insts_of_emit ho hv with hv | ⟨rfl, rfl⟩
    · have hd' := h.value?_of_emit hv hd
      have hm := h.phis hv hd' he
      -- No edge to a block with a phi is added.
      have hb : b ∉ op.successors := by
        intro hb
        simpa [he, Op.isPhi] using hc.noPhi b hb hv hd'
      exact {
        first := emit_head? ho hm.first
        not_entry := hm.not_entry
        nodup := hm.nodup
        mem_iff := by
          intro q
          simp [h.wf.mem_emit_successors_iff ho hc.isTerminator, hb, hm.mem_iff q]
        reached := fun q hq => h.reaches_emit ho hc (hm.reached q hq) }
    · cases emit_value?_freshValue.symm.trans hd
      have := hc.isTerminator
      simp [show op = _ from he, Op.isTerminator] at this

end Draft

-- What has to hold to move an edge from `old` to `new`. Both are open and empty, and if the edge was
-- on a path, another one leads to `old`.
structure Redirects (f : Function) (p old new : BlockId) (op₁ op₂ : Op) : Prop where
  terminator : f.terminator? p = some op₁
  retarget : op₁.retarget? old new = some op₂
  old_open : f.Open old
  old_empty : f.insts old = []
  new_open : f.Open new
  new_empty : f.insts new = []
  fresh : new ∉ f.successors p
  other : f.Reaches p → ∃ q, q ≠ p ∧ f.Reaches q ∧ old ∈ f.successors q

namespace Redirects

variable {old new : BlockId} {op₁ op₂ : Op} (hr : f.Redirects p old new op₁ op₂) (h : f.Draft)
include hr

theorem noPhi (hb : f.NoPhi b) : (f.redirect p op₂).NoPhi b := by
  intro v d hv hd
  have ⟨op', hd', hor⟩ := exists_of_redirect_value? hr.terminator hd
  rw [redirect_insts] at hv
  rcases hor with he | ⟨_, he⟩
  · exact he ▸ hb hv hd'
  · have := Op.isTerminator_of_retarget? hr.retarget
    rw [he]
    cases op₂ <;> simp_all [Op.isTerminator, Op.isPhi]

include h

theorem mem_successors_iff (q : BlockId) :
    b ∈ (f.redirect p op₂).successors q ↔
      q ≠ p ∧ b ∈ f.successors q ∨ q = p ∧ (b = new ∨ b ∈ f.successors q ∧ b ≠ old) :=
  mem_redirect_successors_iff h.wf h.linked hr.terminator hr.retarget q

theorem reaches_iff :
    (f.redirect p op₂).Reaches b ↔ f.Reaches b ∨ f.Reaches p ∧ b = new :=
  redirect_reaches_iff h.wf h.linked hr.terminator hr.retarget hr.old_open hr.new_open hr.other

theorem draft : (f.redirect p op₂).Draft where
  wf := h.wf.redirect hr.terminator
  linked := .redirect h.wf h.linked hr.terminator hr.retarget hr.new_open.created hr.fresh
  entry := by simpa using h.entry
  phis := by
    intro b v d inc hv hd he
    have ⟨op', hd', hor⟩ := exists_of_redirect_value? hr.terminator hd
    rw [redirect_insts] at hv
    have he' : op' = .phi inc := by
      rcases hor with hor | ⟨_, hor⟩
      · exact hor.trans he
      · have := Op.isTerminator_of_retarget? hr.retarget
        simp [← hor, he, Op.isTerminator] at this
    have hm := h.phis hv hd' he'
    have hold : b ≠ old := by rintro rfl; simp [hr.old_empty] at hv
    have hnew : b ≠ new := by rintro rfl; simp [hr.new_empty] at hv
    exact {
      first := by simpa using hm.first
      not_entry := by simpa using hm.not_entry
      nodup := hm.nodup
      mem_iff := by
        intro q
        rw [hr.mem_successors_iff h, hm.mem_iff q]
        by_cases hq : q = p <;> simp [hq, hold, hnew]
      reached := fun q hq => (hr.reaches_iff h).mpr (.inl (hm.reached q hq)) }

end Redirects

end StackCompiler.Ssa.Function
