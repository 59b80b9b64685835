import StackCompiler.Proofs.Ssa.Path

-- Functions that come from any sequence of the operations that build and prune them. Other than a
-- function under construction, such a function may be edited again after blocks left its layout.

namespace StackCompiler.Ssa

theorem Op.mem_successors_of_moved {op op' : Op} {old new b : BlockId}
    (h : op.retarget? old new = some op') (hb : b ∈ op'.successors) :
    b = new ∨ b ∈ op.successors := by
  cases op <;> simp only [retarget?] at h <;> grind [successors]

theorem Op.filterIncoming_of_isTerminator {op : Op} {keep : BlockId → Bool}
    (h : op.isTerminator = true) : op.filterIncoming keep = op := by
  cases op <;> simp_all [isTerminator, filterIncoming]

namespace Function

-- A function that was made from an empty one. Whoever adds or moves an edge names only blocks that
-- meet `names` at that time.
inductive Built (names : Function → BlockId → Prop) : Function → Prop
  | empty (name : String) (result : Option Scalar) : Built names (.empty name result)
  | declare {f : Function} (h : Built names f) (name : String) (params : List ValueId)
    (result : Option Scalar) : Built names { f with name, params, result }
  | addParam {f : Function} (h : Built names f) (name : String) (type : Scalar) :
    Built names (f.addParam name type).2
  | addBlock {f : Function} (h : Built names f) (name : String) : Built names (f.addBlock name).2
  | append {f g : Function} {p : BlockId} {name : String} {type : Option Scalar} {op : Op}
    {v : ValueId} (h : Built names f) (hn : ∀ b ∈ op.successors, names f b)
    (hg : append p name type op f = .ok v g) : Built names g
  | retarget {f g : Function} {p old new : BlockId} (h : Built names f) (hn : names f new)
    (hg : retarget p old new f = .ok () g) : Built names g
  | prune {f : Function} (h : Built names f) : Built names f.prune.2

-- What all these functions have in common.
structure Consistent (f : Function) : Prop where
  created : ∀ b ∈ f.layout, b.index < f.blocks.size
  entry : ∀ {e}, f.entry = some e → e ∈ f.layout
  listed : f.Listed

-- No edge of a block of the layout leads out of it.
def Contained (f : Function) : Prop :=
  ∀ p ∈ f.layout, ∀ b ∈ f.successors p, b ∈ f.layout

variable {f g : Function} {b p old new : BlockId} {v : ValueId} {d : ValueDef} {op : Op}
variable {name : String} {type : Option Scalar}

theorem exists_of_append (h : append p name type op f = .ok v g) :
    p ∈ f.layout ∧ f.terminator? p = none ∧ g = f.emit p name type op := by
  rw [append_eq] at h
  split at h
  case isTrue => cases h
  case isFalse hm =>
    split at h
    case isTrue => cases h
    case isFalse hc =>
      cases h
      rw [Bool.not_eq_true, isClosed_eq_false_iff] at hc
      exact ⟨not_not.mp hm, hc, rfl⟩

-- An edge moves, or nothing changes.
theorem retarget_cases (f : Function) (p old new : BlockId) :
    (∃ op₁ op₂, f.terminator? p = some op₁ ∧ op₁.retarget? old new = some op₂ ∧
      retarget p old new f = .ok () (f.redirect p op₂)) ∨
    ∃ cause, retarget p old new f = .error cause f := by
  rw [retarget, get_bind]
  cases hb : f.block? p
  case none => exact .inr ⟨_, rfl⟩
  case some block =>
    dsimp only
    cases hl : block.insts.getLast?
    case none => exact .inr ⟨_, rfl⟩
    case some last =>
      dsimp only
      cases ho : (f.value? last).bind fun d => d.op.retarget? old new
      case none =>
        dsimp only
        cases f.block? old <;> exact .inr ⟨_, rfl⟩
      case some op₂ =>
        obtain ⟨d, hd, hr⟩ := Option.bind_eq_some_iff.mp ho
        have hlast : (f.insts p).getLast? = some last := by simpa [insts, hb] using hl
        have ht : d.op.isTerminator = true := by
          cases hop : d.op <;> simp_all [Op.retarget?, Op.isTerminator]
        refine .inl ⟨d.op, op₂, terminator?_eq_some_iff.mpr ⟨last, d, hlast, hd, rfl, ht⟩, hr, ?_⟩
        rw [redirect_of_getLast? hlast]
        rfl

theorem eq_of_retarget_error {cause : CompileError} (h : retarget p old new f = .error cause g) :
    g = f := by
  rcases f.retarget_cases p old new with ⟨_, _, _, _, he⟩ | ⟨_, he⟩ <;> cases he.symm.trans h
  rfl

theorem exists_of_retarget (h : retarget p old new f = .ok () g) :
    ∃ op₁ op₂, f.terminator? p = some op₁ ∧ op₁.retarget? old new = some op₂ ∧
      g = f.redirect p op₂ := by
  rcases f.retarget_cases p old new with ⟨op₁, op₂, ho, hr, he⟩ | ⟨_, he⟩
  · cases he.symm.trans h
    exact ⟨op₁, op₂, ho, hr, rfl⟩
  · cases he.symm.trans h

section Prune

theorem prune_layout : f.prune.2.layout = f.layout.filter f.reachable.contains := by
  simp only [prune]
  split
  case isTrue hr => exact (List.filter_sublist.eq_of_length_le (Nat.le_of_sub_eq_zero hr)).symm
  case isFalse => rfl

theorem mem_prune_layout_iff : b ∈ f.prune.2.layout ↔ b ∈ f.layout ∧ b ∈ f.reachable := by
  simp [prune_layout]

@[simp]
theorem prune_entry : f.prune.2.entry = f.entry := by
  simp only [prune]
  split <;> rfl

@[simp]
theorem prune_blocks : f.prune.2.blocks = f.blocks := by
  simp only [prune]
  split <;> rfl

@[simp]
theorem prune_insts : f.prune.2.insts b = f.insts b := by
  simp [insts, block?]

-- Only phis change, and they stay phis.
theorem prune_value?_of_some (hd : f.value? v = some d) :
    ∃ op, f.prune.2.value? v = some { d with op := op } ∧
      (op = d.op ∨ op = d.op.filterIncoming f.reachable.contains) := by
  simp only [prune]
  split
  case isTrue => exact ⟨d.op, hd, .inl rfl⟩
  case isFalse =>
    have hm : f.values[v.index]? = some d := hd
    simp only [value?, Array.getElem?_map, hm, Option.map_some]
    split
    · exact ⟨_, rfl, .inr rfl⟩
    · exact ⟨_, rfl, .inl rfl⟩

theorem exists_of_prune_value? (hd : f.prune.2.value? v = some d) :
    ∃ op, f.value? v = some { d with op := op } ∧
      (d.op = op ∨ d.op = op.filterIncoming f.reachable.contains) := by
  have hsize : f.prune.2.values.size = f.values.size := by
    simp only [prune]
    split
    · rfl
    · exact Array.size_map
  have hv : v.index < f.values.size := hsize ▸ index_lt_of_value? hd
  obtain ⟨op, hd', ho⟩ := prune_value?_of_some (Array.getElem?_eq_getElem hv)
  cases hd.symm.trans hd'
  exact ⟨_, Array.getElem?_eq_getElem hv, ho⟩

theorem Filed.prune (h : f.Filed) : f.prune.2.Filed := by
  intro b v d hd hb
  obtain ⟨op, hd', -⟩ := exists_of_prune_value? hd
  exact prune_insts (f := f) ▸ h hd' hb

theorem Straight.prune (h : f.Straight) : f.prune.2.Straight := by
  intro b v d hv hd
  rw [prune_insts] at hv
  obtain ⟨op, hd', ho⟩ := exists_of_prune_value? hd
  have hn := h hv hd'
  rcases ho with ho | ho
  · rwa [ho]
  · rwa [ho, Op.isTerminator_filterIncoming]

theorem Listed.prune (h : f.Listed) : f.prune.2.Listed := by
  intro b v hv
  obtain ⟨d, hd, hb⟩ := h (prune_insts (f := f) ▸ hv)
  obtain ⟨op, hd', -⟩ := prune_value?_of_some hd
  exact ⟨_, hd', hb⟩

theorem Listed.prune_terminator? (h : f.Listed) : f.prune.2.terminator? b = f.terminator? b := by
  rw [terminator?_eq, terminator?_eq, prune_insts]
  cases hl : (f.insts b).getLast?
  case none => rfl
  case some v =>
    obtain ⟨d, hd, -⟩ := h (List.mem_of_getLast? hl)
    obtain ⟨op, hd', ho⟩ := prune_value?_of_some hd
    simp only [Option.bind_some, hd, hd']
    rcases ho with rfl | rfl
    · rfl
    · rw [Op.isTerminator_filterIncoming]
      split
      case isTrue ht => rw [Op.filterIncoming_of_isTerminator ht]
      case isFalse => rfl

theorem Listed.prune_successors (h : f.Listed) : f.prune.2.successors b = f.successors b :=
  successors_congr h.prune_terminator?

end Prune

namespace Consistent

variable (h : f.Consistent)
include h

theorem entry_created (he : f.entry = some b) : b.index < f.blocks.size :=
  h.created b (h.entry he)

theorem addBlock : (f.addBlock name).2.Consistent where
  created b hb := by
    rw [addBlock_size]
    rcases List.mem_append.mp hb with hb | hb
    · exact Nat.lt_succ_of_lt (h.created b hb)
    · rw [List.mem_singleton.mp hb]
      exact Nat.lt_succ_self _
  entry {e} he := by
    refine List.mem_append.mpr ?_
    rcases Option.or_eq_some_iff.mp he with he | ⟨-, he⟩
    · exact .inl (h.entry he)
    · exact .inr (List.mem_singleton.mpr (Option.some.inj he).symm)
  listed := h.listed.addBlock

theorem addParam {type : Scalar} : (f.addParam name type).2.Consistent where
  created := h.created
  entry := h.entry
  listed := h.listed.addParam

theorem emit (hp : p ∈ f.layout) : (f.emit p name type op).Consistent where
  created b hb := by
    rw [emit_size]
    exact h.created b hb
  entry := h.entry
  listed := h.listed.emit (h.created p hp)

theorem redirect {op₁ : Op} (ho : f.terminator? p = some op₁) : (f.redirect p op).Consistent where
  created := by simpa using h.created
  entry he := by
    rw [redirect_entry] at he
    rw [redirect_layout]
    exact h.entry he
  listed := h.listed.redirect ho

theorem prune : f.prune.2.Consistent where
  created b hb := by
    rw [prune_blocks]
    exact h.created b (mem_prune_layout_iff.mp hb).left
  entry he := by
    rw [prune_entry] at he
    exact mem_prune_layout_iff.mpr ⟨h.entry he, mem_reachable_of_entry he (h.entry_created he)⟩
  listed := h.listed.prune

end Consistent

namespace Built

variable {names : Function → BlockId → Prop}

theorem consistent (h : f.Built names) : f.Consistent := by
  induction h
  case empty => exact ⟨by simp [Function.empty], by simp [Function.empty],
    by simp [Listed, insts, block?, Function.empty]⟩
  case declare hi => exact ⟨hi.created, hi.entry, hi.listed⟩
  case addParam hi => exact hi.addParam
  case addBlock hi => exact hi.addBlock
  case append hg hi =>
    obtain ⟨hp, -, rfl⟩ := exists_of_append hg
    exact hi.emit hp
  case retarget hg hi =>
    obtain ⟨op₁, op₂, ho, -, rfl⟩ := exists_of_retarget hg
    exact hi.redirect ho
  case prune hi => exact hi.prune

theorem filed (h : f.Built names) : f.Filed := by
  induction h
  case empty => simp [Filed, value?, Function.empty]
  case declare hi => exact hi
  case addParam hi => exact hi.addParam
  case addBlock hi => exact hi.addBlock
  case append h _ hg hi =>
    obtain ⟨hp, -, rfl⟩ := exists_of_append hg
    exact hi.emit (h.consistent.created _ hp)
  case retarget hg hi =>
    obtain ⟨op₁, op₂, ho, -, rfl⟩ := exists_of_retarget hg
    exact hi.redirect ho
  case prune hi => exact hi.prune

theorem straight (h : f.Built names) : f.Straight := by
  induction h
  case empty => simp [Straight, insts, block?, Function.empty]
  case declare hi => exact hi
  case addParam h _ _ hi => exact hi.addParam h.consistent.listed
  case addBlock hi => exact hi.addBlock
  case append h _ hg hi =>
    obtain ⟨hp, ho, rfl⟩ := exists_of_append hg
    exact hi.emit h.consistent.listed ⟨h.consistent.created _ hp, ho⟩
  case retarget hg hi =>
    obtain ⟨op₁, op₂, ho, -, rfl⟩ := exists_of_retarget hg
    exact hi.redirect ho
  case prune hi => exact hi.prune

theorem emit (h : f.Built names) (hn : ∀ b ∈ op.successors, names f b) (hp : p ∈ f.layout)
    (ho : f.isClosed p = false) : (f.emit p name type op).Built names := by
  have hg : Function.append p name type op f = .ok f.freshValue (f.emit p name type op) := by
    rw [append_eq, if_neg (not_not.mpr hp), if_neg (by simp [ho])]
  exact .append h hn hg

end Built

namespace Contained

variable (h : f.Contained) (hc : f.Consistent)
include h

theorem addBlock : (f.addBlock name).2.Contained := by
  intro p hp b hb
  rw [addBlock_successors] at hb
  refine List.mem_append_left _ ?_
  rcases List.mem_append.mp hp with hp | hp
  · exact h p hp b hb
  · have hq : p = f.freshBlock := List.mem_singleton.mp hp
    simp [hq, successors_eq_nil_of_terminator? terminator?_freshBlock] at hb

include hc

theorem addParam {type : Scalar} : (f.addParam name type).2.Contained := by
  intro p hp b hb
  rw [successors_congr hc.listed.addParam_terminator?] at hb
  exact h p hp b hb

theorem emit (hp : p ∈ f.layout) (hn : ∀ b ∈ op.successors, b ∈ f.layout) :
    (f.emit p name type op).Contained := by
  intro q hq b hb
  by_cases he : q = p
  case neg =>
    rw [successors_congr (hc.listed.emit_terminator?_of_ne he)] at hb
    exact h q hq b hb
  case pos =>
    subst he
    obtain ⟨op', ho, hb⟩ := terminator?_of_mem_successors hb
    rw [emit_terminator?_self (hc.created q hp)] at ho
    split at ho
    case isTrue =>
      cases ho
      exact hn b hb
    case isFalse => cases ho

theorem redirect {op₁ : Op} (ho : f.terminator? p = some op₁)
    (hr : op₁.retarget? old new = some op) (hn : new ∈ f.layout) : (f.redirect p op).Contained := by
  intro q hq b hb
  rw [redirect_layout] at hq ⊢
  by_cases he : q = p
  case neg =>
    rw [successors_congr (hc.listed.redirect_terminator?_of_ne ho he)] at hb
    exact h q hq b hb
  case pos =>
    subst he
    have ht := redirect_terminator?_self ho (Op.isTerminator_of_retarget? hr)
    rw [successors_of_terminator? ht] at hb
    rcases Op.mem_successors_of_moved hr hb with rfl | hb
    · exact hn
    · exact h q hq b (successors_of_terminator? ho ▸ hb)

-- What is left can go only where it went before, and what it can reach is left.
theorem prune : f.prune.2.Contained := by
  intro p hp b hb
  rw [mem_prune_layout_iff] at hp ⊢
  rw [hc.listed.prune_successors] at hb
  have hm := h p hp.left b hb
  exact ⟨hm, mem_reachable_of_edge hp.right hb (hc.created b hm)⟩

end Contained

-- Edges that lead to blocks of the layout when they are drawn never lead out of it.
theorem Built.contained (h : f.Built fun g b => b ∈ g.layout) : f.Contained := by
  induction h
  case empty => simp [Contained, Function.empty]
  case declare hi => exact hi
  case addParam h _ _ hi => exact hi.addParam h.consistent
  case addBlock hi => exact hi.addBlock
  case append h hn hg hi =>
    obtain ⟨hp, -, rfl⟩ := exists_of_append hg
    exact hi.emit h.consistent hp hn
  case retarget h hn hg hi =>
    obtain ⟨op₁, op₂, ho, hr, rfl⟩ := exists_of_retarget hg
    exact hi.redirect h.consistent ho hr hn
  case prune h hi => exact hi.prune h.consistent

end Function

end StackCompiler.Ssa
