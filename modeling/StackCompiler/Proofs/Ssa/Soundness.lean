import StackCompiler.Proofs.Ssa.Finish

-- What finished functions promise to those who read them: every operand is available where it is
-- used, and every instruction is well typed.

namespace StackCompiler.Ssa.Function

variable {f : Function} {dom : Scope} {a b p : BlockId} {u v : ValueId} {d : ValueDef}
variable {blocks : List BlockId}

-- A path from the entry to a block, with all blocks on it, the last one first.
inductive Path (f : Function) : BlockId → List BlockId → Prop
  | entry {e : BlockId} : f.entry = some e → Path f e [e]
  | step {p b : BlockId} {blocks : List BlockId} :
    Path f p blocks → b ∈ f.successors p → Path f b (b :: blocks)

-- Every path to `b` comes through `a`.
def Dominates (f : Function) (a b : BlockId) : Prop :=
  ∀ blocks, f.Path b blocks → a ∈ blocks

-- The value stands in a block of the layout through which every path to `b` comes.
def Available (f : Function) (b : BlockId) (u : ValueId) : Prop :=
  ∃ a ∈ f.layout, u ∈ f.insts a ∧ f.Dominates a b

-- A phi needs its values at the end of the blocks they come from. All other instructions need their
-- operands before themselves.
def Dominated (f : Function) (b : BlockId) (v : ValueId) : Op → Prop
  | .phi incoming => ∀ i ∈ incoming, i.2 ∈ f.params ∨ f.Available i.1 i.2
  | op => ∀ u ∈ op.operands, u ∈ f.params ∨ [u, v].Sublist (f.insts b) ∨
      ∃ a ∈ f.layout, a ≠ b ∧ u ∈ f.insts a ∧ f.Dominates a b

-- The types that an instruction of a function needs.
def WellTyped (f : Function) (type : Option Scalar) : Op → Prop
  | .binary _ lhs rhs => ∃ t, type = some t ∧ f.HasType lhs t ∧ f.HasType rhs t
  | .neg operand => ∃ t, type = some t ∧ t.isFloat = true ∧ f.HasType operand t
  | .load address | .store _ address => f.HasType address .ptr
  | .phi incoming => ∃ t, type = some t ∧ ∀ i ∈ incoming, f.HasType i.2 t
  | .branch lhs _ rhs _ _ => ∃ t, f.HasType lhs t ∧ f.HasType rhs t
  | .ret value => ∃ t, f.result = some t ∧ f.HasType value t
  | .exit => f.result = none
  | .param _ | .const _ | .alloc _ _ | .globalAddr _ | .cast _ | .call _ | .jump _ => True

theorem mem_instructions_iff : (v, d) ∈ f.instructions b ↔ v ∈ f.insts b ∧ f.value? v = some d := by
  simp [instructions_eq]

theorem Path.reaches (h : f.Path b blocks) : f.Reaches b ∧ ∀ a ∈ blocks, f.Reaches a := by
  induction h
  case entry he => exact ⟨.entry he, by simpa using .entry he⟩
  case step hb hi =>
    have hr := Reaches.step hi.1 hb
    exact ⟨hr, by simpa using ⟨hr, hi.2⟩⟩

theorem Reaches.exists_path (h : f.Reaches b) : ∃ blocks, f.Path b blocks := by
  induction h
  case entry he => exact ⟨_, .entry he⟩
  case step _ hb hi =>
    have ⟨_, hp⟩ := hi
    exact ⟨_, .step hp hb⟩

theorem Dominates.reaches (h : f.Dominates a b) (hb : f.Reaches b) : f.Reaches a :=
  have ⟨_, hp⟩ := hb.exists_path
  hp.reaches.2 a (h _ hp)

-- A scope holds only blocks that no path can avoid.
theorem Scoped.dominates (h : f.Scoped dom) (ha : a ∈ dom b) : f.Dominates a b := by
  intro blocks hp
  induction hp
  case entry he => simpa using h.entry he ha
  case step hb hi =>
    rcases h.edge hb ha with rfl | ha
    · simp
    · exact .tail _ (hi ha)

-- In a block, values stand in the order of their numbers.
theorem WellFormed.sublist_insts (h : f.WellFormed) (hu : u ∈ f.insts b) (hv : v ∈ f.insts b)
    (hlt : u.index < v.index) : [u, v].Sublist (f.insts b) := by
  have ha := h.ascending b
  generalize f.insts b = insts at hu hv ha ⊢
  induction insts
  case nil => simp at hu
  case cons x xs hi =>
    have ⟨hx, ha⟩ := List.pairwise_cons.mp ha
    rcases List.mem_cons.mp hu with rfl | hu' <;> rcases List.mem_cons.mp hv with rfl | hv'
    · exact absurd hlt (Nat.lt_irrefl _)
    · exact .cons_cons _ (List.singleton_sublist.mpr hv')
    · exact absurd (Nat.lt_trans hlt (hx u hu')) (Nat.lt_irrefl _)
    · exact .cons _ (hi hu' hv' ha)

-- Only the last instruction of a block leads anywhere.
theorem WellFormed.mem_successors (h : f.WellFormed) (hv : v ∈ f.insts b)
    (hd : f.value? v = some d) (ha : a ∈ d.op.successors) : a ∈ f.successors b := by
  have ht : d.op.isTerminator = true := by
    by_contra hn
    rw [Op.successors_eq_nil_of_not_isTerminator (Bool.eq_false_iff.mpr hn)] at ha
    cases ha
  rwa [successors_of_terminator? (h.terminator?_of_mem_insts hv hd ht)]

theorem trimmed_dominates_iff : f.trimmed.Dominates a b ↔ f.Dominates a b := by
  have hp (blocks) : f.trimmed.Path b blocks ↔ f.Path b blocks := by
    constructor <;> intro hp <;> induction hp
    case mp.entry he => exact .entry he
    case mp.step hb hi => exact .step hi hb
    case mpr.entry he => exact .entry he
    case mpr.step hb hi => exact .step hi hb
  simp only [Dominates, hp]

namespace Complete

variable (h : f.Complete dom)
include h

theorem params_or_dominates {t : Scalar} (hb : f.Reaches b) (hu : f.Usable dom b u t) :
    u ∈ f.params ∨ ∃ a ∈ f.trimmed.layout, u ∈ f.insts a ∧ f.Dominates a b := by
  have ⟨d, hd, _, hx⟩ := hu
  cases hblock : d.block
  case none => exact .inl ((h.draft.wf.params_iff u).mpr ⟨d, hd, hblock⟩)
  case some a =>
    have ha := h.scope.dominates (hx a hblock)
    exact .inr ⟨a, (mem_trimmed_layout_iff h.draft).mpr (ha.reaches hb),
      h.draft.wf.lists hd hblock, ha⟩

theorem available {t : Scalar} (hb : f.Reaches b) (hu : f.Usable dom b u t) :
    u ∈ f.params ∨ f.trimmed.Available b u := by
  refine (h.params_or_dominates hb hu).imp_right fun ⟨a, ha, hm, hd⟩ => ?_
  exact ⟨a, ha, hm, trimmed_dominates_iff.mpr hd⟩

theorem dominated (hb : b ∈ f.trimmed.layout) (hv : v ∈ f.insts b) (hd : f.value? v = some d) :
    f.trimmed.Dominated b v d.op := by
  have hr := (mem_trimmed_layout_iff h.draft).mp hb
  have ⟨d', hd', hblock⟩ := h.draft.wf.listed hv
  cases hd.symm.trans hd'
  have hf := h.scope.fits hd hblock
  unfold Dominated
  split
  case h_1 incoming hop =>
    rw [hop] at hf
    have ⟨t, _, hi⟩ := hf
    intro i hm
    exact h.available ((h.draft.phis hv hd hop).reached i.1 (List.mem_map_of_mem hm)) (hi i hm).2
  case h_2 hop =>
    have hp : d.op.isPhi = false := Bool.eq_false_iff.mpr fun hp =>
      have ⟨incoming, he⟩ := Op.eq_phi_of_isPhi hp
      hop incoming he
    intro u hu
    have ⟨t, hus⟩ := hf.usable_of_mem_operands hp hu
    refine (h.params_or_dominates hr hus).imp_right fun ⟨a, ha, hm, hdom⟩ => ?_
    by_cases he : a = b
    case pos =>
      exact .inl (h.draft.wf.sublist_insts (he ▸ hm) hv (h.scope.ordered hd hp u hu))
    case neg => exact .inr ⟨a, ha, he, hm, trimmed_dominates_iff.mpr hdom⟩

theorem leads_to_layout (hb : b ∈ f.trimmed.layout) (hv : v ∈ f.insts b)
    (hd : f.value? v = some d) (ha : a ∈ d.op.successors) : a ∈ f.trimmed.layout := by
  rw [mem_trimmed_layout_iff h.draft] at hb ⊢
  exact hb.step (h.draft.wf.mem_successors hv hd ha)

theorem wellTyped (hb : b ∈ f.trimmed.layout) (hv : v ∈ f.insts b) (hd : f.value? v = some d) :
    f.trimmed.WellTyped d.type d.op := by
  have hr := (mem_trimmed_layout_iff h.draft).mp hb
  obtain ⟨d', hd', hblock⟩ := h.draft.wf.listed hv
  cases hd.symm.trans hd'
  have hf := h.scope.fits hd hblock
  cases hop : d.op <;> simp only [hop, Fits] at hf <;> try trivial
  case binary =>
    obtain ⟨t, ht, hl, hr⟩ := hf
    exact ⟨t, ht, hl.hasType, hr.hasType⟩
  case neg =>
    obtain ⟨t, ht, hfl, ho⟩ := hf
    exact ⟨t, ht, hfl, ho.hasType⟩
  case load => exact hf.hasType
  case store => exact hf.2.hasType
  case phi =>
    obtain ⟨t, ht, hi⟩ := hf
    exact ⟨t, ht, fun i hm => (hi i hm).2.hasType⟩
  case branch =>
    obtain ⟨t, hl, hr⟩ := hf
    exact ⟨t, hl.hasType, hr.hasType⟩
  case ret =>
    obtain ⟨t, ht, hv⟩ := hf
    exact ⟨t, ht, hv.hasType⟩
  case exit => exact hf.resolve_right (not_not_intro hr)

end Complete

end StackCompiler.Ssa.Function
