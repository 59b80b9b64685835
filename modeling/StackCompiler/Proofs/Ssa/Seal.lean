import StackCompiler.Proofs.Ssa.Scope

-- Closing a block with a terminator, together with the fresh blocks that come with it. What it does
-- to the rest of the function does not depend on the order in which blocks and terminators are added.

namespace StackCompiler.Ssa

def Op.isCall : Op → Bool
  | call _ => true
  | _ => false

namespace Function

-- The calls of a function, in the order of their numbers.
def callValues (f : Function) : List ValueId :=
  ((List.range f.values.size).map ValueId.mk).filter fun v => (f.value? v).any (·.op.isCall)

variable {f g : Function} {dom dom' : Scope} {b p n : BlockId} {v : ValueId} {op : Op}
variable {name : String} {type : Option Scalar} {fresh : List BlockId}

theorem callValues_congr (hs : g.values.size = f.values.size)
    (hv : ∀ v, (g.value? v).any (·.op.isCall) = (f.value? v).any (·.op.isCall)) :
    g.callValues = f.callValues := by
  simp [callValues, hs, hv]

theorem callValues_push {d : ValueDef} (hg : g.values = f.values.push d) :
    g.callValues = f.callValues ++ if d.op.isCall then [f.freshValue] else [] := by
  simp only [callValues, value?, hg, Array.size_push, List.range_succ, List.map_append,
    List.filter_append]
  congr 1
  case e_a =>
    refine List.filter_congr fun v hv => ?_
    obtain ⟨n, hn, hv⟩ := List.mem_map.mp hv
    have hlt : v.index < f.values.size := by
      rw [← hv]
      exact List.mem_range.mp hn
    rw [Array.getElem?_push_lt hlt, Array.getElem?_eq_getElem hlt]
  case e_a => simp [List.filter_cons, freshValue]

theorem callValues_emit : (f.emit p name type op).callValues =
    f.callValues ++ if op.isCall then [f.freshValue] else [] :=
  callValues_push (d := ⟨name, type, op, some p⟩) rfl

theorem callValues_addParam {type : Scalar} : (f.addParam name type).2.callValues = f.callValues := by
  have hg : (f.addParam name type).2.values =
      f.values.push ⟨name, some type, .param f.params.length, none⟩ := rfl
  simp [callValues_push hg, Op.isCall]

theorem callValues_emit_of_isTerminator (ht : op.isTerminator = true) :
    (f.emit p name type op).callValues = f.callValues := by
  have hc : op.isCall = false := by cases op <;> simp_all [Op.isTerminator, Op.isCall]
  simp [callValues_emit, hc]

theorem callValues_redirect {op₁ op₂ : Op} (hp : f.terminator? p = some op₁)
    (ht : op₂.isTerminator = true) : (f.redirect p op₂).callValues = f.callValues := by
  have ⟨v, d, hv, hd, ho, ht₁⟩ := terminator?_eq_some_iff.mp hp
  have hc {o : Op} (h : o.isTerminator = true) : o.isCall = false := by
    cases o <;> simp_all [Op.isTerminator, Op.isCall]
  refine callValues_congr (by simp [redirect_of_getLast? hv]) fun w => ?_
  rw [redirect_value? hv]
  by_cases hw : w = v
  case pos => simp [hw, hd, ho, hc ht, hc ht₁]
  case neg => simp [hw]

theorem noPhi_addBlock_iff : (f.addBlock name).2.NoPhi b ↔ f.NoPhi b where
  mp h _ _ hv hd := h (by simpa using hv) hd
  mpr h _ _ hv hd := h (by simpa using hv) hd

-- All of `f` is in `g`, up to the edges of terminators.
structure Begins (f g : Function) : Prop where
  keeps : f.Keeps g
  value : ∀ {v d}, f.value? v = some d → d.op.isTerminator = false → g.value? v = some d
  insts : ∀ b, f.insts b <+: g.insts b

theorem Grows.begins {e : Function} (h : e.Grows f) (hg : f.Begins g) : e.Begins g where
  keeps := h.keeps.trans hg.keeps
  value hd := hg.value (h.value hd)
  insts b := (h.insts b).trans (hg.insts b)

-- More code and more blocks, but no phi.
structure Extends (f g : Function) : Prop where
  grows : f.Grows g
  entry : g.entry = f.entry
  size : f.blocks.size ≤ g.blocks.size
  noPhi : ∀ {b}, f.NoPhi b → g.NoPhi b

namespace Extends

theorem refl (f : Function) : f.Extends f :=
  ⟨.refl f, rfl, Nat.le_refl _, fun hb => hb⟩

theorem trans {e : Function} (h₁ : e.Extends f) (h₂ : f.Extends g) : e.Extends g where
  grows := h₁.grows.trans h₂.grows
  entry := h₂.entry.trans h₁.entry
  size := Nat.le_trans h₁.size h₂.size
  noPhi hb := h₂.noPhi (h₁.noPhi hb)

theorem addBlock (he : f.entry.isSome) : f.Extends (f.addBlock name).2 where
  grows := .addBlock
  entry := addBlock_entry he
  size := by simp
  noPhi := noPhi_addBlock_iff.mpr

theorem addParam {type : Scalar} (h : f.WellFormed) : f.Extends (f.addParam name type).2 where
  grows := .addParam
  entry := rfl
  size := Nat.le_refl _
  noPhi hb v d hv hd := by
    have ⟨d', hd'⟩ := h.value?_of_mem_insts hv
    rw [addParam_value?, if_neg (ne_freshValue hd')] at hd
    exact hb hv hd

theorem emit (h : f.Draft) (ho : f.Open p) (hp : op.isPhi = false) :
    f.Extends (f.emit p name type op) where
  grows := .emit ho.created
  entry := rfl
  size := by simp
  noPhi := h.noPhi_emit ho hp

end Extends

-- A block that block `p` may lead to.
structure Target (f : Function) (dom : Scope) (p b : BlockId) : Prop where
  created : b.index < f.blocks.size
  noPhi : f.NoPhi b
  ends : f.Reaches p → f.Reaches b ∨ f.Open b ∧ b ≠ p
  scope : dom b ⊆ insert b (dom p)

theorem Target.addBlock {outer : Set BlockId} (h : f.Target dom p b) (hf : f.Draft)
    (hp : p.index < f.blocks.size) :
    (f.addBlock name).2.Target (dom.extend f.freshBlock outer) p b where
  created := by simpa using Nat.lt_succ_of_lt h.created
  noPhi := noPhi_addBlock_iff.mpr h.noPhi
  ends hr := (h.ends ((addBlock_reaches_iff hf.entry).mp hr)).imp
    (addBlock_reaches_iff hf.entry).mpr fun ho => ⟨addBlock_open_iff.mpr (.inl ho.1), ho.2⟩
  scope := by
    rw [Scope.extend_of_ne (ne_freshBlock h.created), Scope.extend_of_ne (ne_freshBlock hp)]
    exact h.scope

-- A fresh block can be led to.
theorem target_freshBlock {outer : Set BlockId} (hp : p.index < f.blocks.size) (ho : outer ⊆ dom p) :
    (f.addBlock name).2.Target (dom.extend f.freshBlock outer) p f.freshBlock where
  created := by simp
  noPhi := noPhi_of_insts_eq_nil (addBlock_insts.trans insts_freshBlock)
  ends _ := .inr ⟨addBlock_open_iff.mpr (.inr rfl), (ne_freshBlock hp).symm⟩
  scope := by
    rw [Scope.extend_self, Scope.extend_of_ne (ne_freshBlock hp)]
    exact Set.insert_subset_insert ho

theorem Fits.addBlock {outer : Set BlockId} (h : f.Fits dom p type op) (hf : f.Draft)
    (hp : p.index < f.blocks.size) :
    (f.addBlock name).2.Fits (dom.extend f.freshBlock outer) p type op :=
  h.mono .addBlock rfl (by simp) (fun x hx => by rw [Scope.extend_of_ne (ne_freshBlock hx)]) hp
    fun _ => (addBlock_reaches_iff hf.entry).mp

-- In `g`, the block `p` of `f` is closed by `op`, and the blocks `fresh` are new and open.
structure Sealed (f : Function) (dom : Scope) (p : BlockId) (op : Op) (fresh : List BlockId)
    (g : Function) (dom' : Scope) : Prop where
  draft : g.Draft
  scope : g.Scoped dom'
  evolves : f.Evolves dom g dom'
  grows : f.Grows g
  created : ∀ n ∈ fresh, f.blocks.size ≤ n.index
  open_iff : ∀ {b}, g.Open b ↔ f.Open b ∧ b ≠ p ∨ b ∈ fresh
  terminator : g.terminator? p = some op
  insts : ∀ {b}, b ≠ p → b.index < f.blocks.size ∨ b ∈ fresh → g.insts b = f.insts b
  noPhi : ∀ {b}, f.NoPhi b → g.NoPhi b
  mem_successors_iff : ∀ {q b}, b ∈ g.successors q ↔ b ∈ f.successors q ∨ q = p ∧ b ∈ op.successors
  reaches_iff : ∀ {b}, g.Reaches b ↔ f.Reaches b ∨ f.Reaches p ∧ b ∈ op.successors
  callValues : g.callValues = f.callValues

theorem Sealed.extends (h : f.Sealed dom p op fresh g dom') : f.Extends g :=
  ⟨h.grows, h.evolves.entry, h.evolves.size, h.noPhi⟩

namespace Sealed

theorem close (hd : f.Draft) (hs : f.Scoped dom) (ho : f.Open p) (ht : op.isTerminator = true)
    (hn : op.successors.Nodup) (he : ∀ b ∈ op.successors, f.Target dom p b)
    (hf : f.Fits dom p none op) : f.Sealed dom p op [] (f.emit p "" none op) dom := by
  have hc : f.Closes p op := {
    isTerminator := ht
    nodup := hn
    created := fun b hb => (he b hb).created
    noPhi := fun b hb => (he b hb).noPhi
    ends := fun hp b hb => (he b hb).ends hp }
  exact {
    draft := hd.close ho hc
    scope := hs.close hd ho hc hf fun b hb => (he b hb).scope
    evolves := .close hd ho hc
    grows := .emit ho.created
    created := by simp
    open_iff := by simp [hd.wf.emit_open_iff ho, ht]
    terminator := by simp [emit_terminator?_self ho.created, ht]
    insts := fun hb _ => emit_insts_of_ne hb
    noPhi := hd.noPhi_emit ho <| by cases op <;> simp_all [Op.isTerminator, Op.isPhi]
    mem_successors_iff := hd.wf.mem_emit_successors_iff ho ht _
    reaches_iff := hd.wf.emit_reaches_iff ho ht hc.ends
    callValues := callValues_emit_of_isTerminator ht }

-- A block that is added afterwards.
theorem addBlock (h : f.Sealed dom p op fresh g dom') {outer : Set BlockId}
    (ho : ∀ x ∈ outer, x.index < g.blocks.size) (hr : ∀ e, g.entry = some e → e ∈ outer) :
    f.Sealed dom p op (g.freshBlock :: fresh) (g.addBlock name).2
      (dom'.extend g.freshBlock outer) where
  draft := h.draft.addBlock
  scope := h.scope.addBlock h.draft ho hr
  evolves := h.evolves.trans (.addBlock h.draft)
  grows := h.grows.trans .addBlock
  created n hn := by
    rcases List.mem_cons.mp hn with rfl | hn
    · exact h.evolves.size
    · exact h.created n hn
  open_iff := by
    intro b
    rw [addBlock_open_iff, h.open_iff, List.mem_cons]
    tauto
  terminator := by rw [addBlock_terminator?, h.terminator]
  insts := by
    intro b hb hor
    rw [addBlock_insts]
    by_cases he : b = g.freshBlock
    case pos =>
      have hc : ¬b.index < f.blocks.size := by simpa [he] using h.evolves.size
      rw [he, insts_freshBlock, ← he, insts_eq_nil_of_not_created hc]
    case neg => exact h.insts hb (hor.imp_right fun hm => (List.mem_cons.mp hm).resolve_left he)
  noPhi hb := noPhi_addBlock_iff.mpr (h.noPhi hb)
  mem_successors_iff := by
    intro q b
    rw [addBlock_successors, h.mem_successors_iff]
  reaches_iff := (addBlock_reaches_iff h.draft.entry).trans h.reaches_iff
  callValues := h.callValues

-- A block that was added before.
theorem of_addBlock {outer : Set BlockId} (hf : f.Draft) (hp : p.index < f.blocks.size)
    (h : (f.addBlock name).2.Sealed (dom.extend f.freshBlock outer) p op fresh g dom') :
    f.Sealed dom p op (f.freshBlock :: fresh) g dom' where
  draft := h.draft
  scope := h.scope
  evolves := (Evolves.addBlock hf).trans h.evolves
  grows := Grows.addBlock.trans h.grows
  created n hn := by
    rcases List.mem_cons.mp hn with rfl | hn
    · exact Nat.le_refl _
    · exact Nat.le_of_succ_le (by simpa using h.created n hn)
  open_iff := by
    intro b
    have := ne_freshBlock hp
    rw [h.open_iff, addBlock_open_iff, List.mem_cons]
    grind
  terminator := h.terminator
  insts := by
    intro b hb hor
    rw [h.insts hb, addBlock_insts]
    rw [addBlock_size]
    rcases hor with hor | hor
    · exact .inl (Nat.lt_succ_of_lt hor)
    · rcases List.mem_cons.mp hor with rfl | hor
      · exact .inl (Nat.lt_succ_self _)
      · exact .inr hor
  noPhi hb := h.noPhi (noPhi_addBlock_iff.mpr hb)
  mem_successors_iff := by
    intro q b
    rw [h.mem_successors_iff, addBlock_successors]
  reaches_iff := by
    intro b
    rw [h.reaches_iff, addBlock_reaches_iff hf.entry, addBlock_reaches_iff hf.entry]
  callValues := h.callValues

-- A block is added, and may be led to at once.
theorem close_behind {n : String} {outer : Set BlockId} (hd : f.Draft) (hs : f.Scoped dom)
    (ho : f.Open p) (hx : ∀ x ∈ outer, x.index < f.blocks.size)
    (hr : ∀ e, f.entry = some e → e ∈ outer) (hsub : outer ⊆ dom p) (ht : op.isTerminator = true)
    (hn : op.successors.Nodup) (he : ∀ b ∈ op.successors, b = f.freshBlock ∨ f.Target dom p b)
    (hf : f.Fits dom p none op) :
    f.Sealed dom p op [f.freshBlock] ((f.addBlock n).2.emit p "" none op)
      (dom.extend f.freshBlock outer) := by
  have ho' : (f.addBlock n).2.Open p := addBlock_open_iff.mpr (.inl ho)
  refine .of_addBlock hd ho.created <| .close hd.addBlock (hs.addBlock hd hx hr) ho' ht hn ?_ ?_
  · intro b hb
    rcases he b hb with rfl | hb
    · exact target_freshBlock ho.created hsub
    · exact hb.addBlock hd ho.created
  · exact hf.addBlock hd ho.created

-- Two blocks are added, and led to at once.
theorem fork {n₁ n₂ : String} (hd : f.Draft) (hs : f.Scoped dom) (ho : f.Open p)
    (ht : op.isTerminator = true) (hn : op.successors.Nodup)
    (he : ∀ b ∈ op.successors, b = f.freshBlock ∨ b = (f.addBlock n₁).2.freshBlock)
    (hf : f.Fits dom p none op) :
    ∃ dom', f.Sealed dom p op [f.freshBlock, (f.addBlock n₁).2.freshBlock]
        (((f.addBlock n₁).2.addBlock n₂).2.emit p "" none op) dom' ∧
      dom' f.freshBlock = insert f.freshBlock (dom p) ∧
      dom' (f.addBlock n₁).2.freshBlock = insert (f.addBlock n₁).2.freshBlock (dom p) := by
  let dom₁ := dom.extend f.freshBlock (dom p)
  have hp := ho.created
  have hp₁ : p.index < (f.addBlock n₁).2.blocks.size := by simpa using Nat.lt_succ_of_lt hp
  have hs₁ : (f.addBlock n₁).2.Scoped dom₁ := hs.addBlock_behind hd hp
  have hdom : dom₁ p = dom p := Scope.extend_of_ne (ne_freshBlock hp)
  have he₁ : ∀ b ∈ op.successors,
      b = (f.addBlock n₁).2.freshBlock ∨ (f.addBlock n₁).2.Target dom₁ p b := by
    intro b hb
    rcases he b hb with rfl | rfl
    · exact .inr (target_freshBlock hp subset_rfl)
    · exact .inl rfl
  refine ⟨dom₁.extend _ (dom₁ p), ?_, ?_, by rw [Scope.extend_self, hdom]⟩
  · refine of_addBlock hd hp <| close_behind hd.addBlock hs₁ (addBlock_open_iff.mpr (.inl ho))
      (fun _ => hs₁.created hp₁) (fun _ => hs₁.root hp₁) subset_rfl ht hn he₁ (hf.addBlock hd hp)
  · rw [Scope.extend_of_ne (ne_freshBlock (by simp))]
    exact Scope.extend_self

-- One of the fresh blocks may be closed at once, if it leads nowhere.
theorem close_fresh {o : Op} (h : f.Sealed dom p op (n :: fresh) g dom')
    (hp : p.index < f.blocks.size) (hn : n ∉ fresh) (ht : o.isTerminator = true)
    (hs : o.successors = []) (hf : g.Fits dom' n none o) :
    f.Sealed dom p op fresh (g.emit n "" none o) dom' := by
  have ho : g.Open n := h.open_iff.mpr (.inr (by simp))
  have hs' : g.Sealed dom' n o [] (g.emit n "" none o) dom' :=
    .close h.draft h.scope ho ht (by simp [hs]) (by simp [hs]) hf
  have hlt := h.created n (by simp)
  have hne : p ≠ n := by rintro rfl; omega
  exact {
    draft := hs'.draft
    scope := hs'.scope
    evolves := h.evolves.trans hs'.evolves
    grows := h.grows.trans hs'.grows
    created := fun m hm => h.created m (by simp [hm])
    open_iff := by
      intro b
      rw [hs'.open_iff, h.open_iff, List.mem_cons]
      have : f.Open b → b ≠ n := by
        rintro hb rfl
        exact absurd hb.created (by omega)
      have : b ∈ fresh → b ≠ n := by
        rintro hb rfl
        exact hn hb
      simp only [List.not_mem_nil, or_false]
      tauto
    terminator := by rw [h.draft.wf.emit_terminator?_of_ne hne, h.terminator]
    insts := by
      intro b hb hor
      have hbn : b ≠ n := by
        rintro rfl
        rcases hor with hor | hor
        · omega
        · exact hn hor
      rw [emit_insts_of_ne hbn, h.insts hb (hor.imp_right fun hm => by simp [hm])]
    noPhi := fun hb => hs'.noPhi (h.noPhi hb)
    mem_successors_iff := by
      intro q b
      simp [hs'.mem_successors_iff, hs, h.mem_successors_iff]
    reaches_iff := by
      intro b
      simp [hs'.reaches_iff, hs, h.reaches_iff]
    callValues := hs'.callValues.trans h.callValues }

end Sealed

-- In `g`, the edges from the blocks `sources` to `old` lead to `new` instead.
structure Moved (f : Function) (dom : Scope) (old new : BlockId) (sources : List BlockId)
    (g : Function) : Prop where
  draft : g.Draft
  scope : g.Scoped dom
  evolves : f.Evolves dom g dom
  value : ∀ {v d}, f.value? v = some d → d.op.isTerminator = false → g.value? v = some d
  insts : ∀ b, g.insts b = f.insts b
  open_iff : ∀ {b}, g.Open b ↔ f.Open b
  noPhi : ∀ {b}, f.NoPhi b → g.NoPhi b
  kept : ∀ {q}, q ∉ sources → g.terminator? q = f.terminator? q
  retargeted : ∀ {q}, q ∈ sources → ∃ op₁ op₂, f.terminator? q = some op₁ ∧
    op₁.retarget? old new = some op₂ ∧ g.terminator? q = some op₂
  reaches_iff : ∀ {b}, g.Reaches b ↔ f.Reaches b ∨ b = new ∧ ∃ q ∈ sources, f.Reaches q
  callValues : g.callValues = f.callValues

namespace Moved

variable {old new : BlockId} {sources : List BlockId} {op₁ op₂ : Op}

theorem nil (hf : f.Draft) (hs : f.Scoped dom) : f.Moved dom old new [] f where
  draft := hf
  scope := hs
  evolves := .refl
  value hd _ := hd
  insts _ := rfl
  open_iff := .rfl
  noPhi h := h
  kept _ := rfl
  retargeted := by simp
  reaches_iff := by simp
  callValues := rfl

theorem cons (hf : f.Draft) (hr : f.Redirects p old new op₁ op₂) (hp : p ∉ sources)
    (h : (f.redirect p op₂).Moved dom old new sources g) : f.Moved dom old new (p :: sources) g where
  draft := h.draft
  scope := h.scope
  evolves := (Evolves.redirect hf hr).trans h.evolves
  value hd ht := h.value (redirect_value?_of_not_isTerminator hr.terminator hd ht) ht
  insts b := by rw [h.insts, redirect_insts]
  open_iff := h.open_iff.trans <|
    hf.wf.redirect_open_iff hr.terminator (Op.isTerminator_of_retarget? hr.retarget)
  noPhi hb := h.noPhi (hr.noPhi hb)
  kept := by
    intro q hq
    rw [List.mem_cons, not_or] at hq
    rw [h.kept hq.2, hf.wf.redirect_terminator?_of_ne hr.terminator hq.1]
  retargeted := by
    intro q hq
    rcases List.mem_cons.mp hq with rfl | hq
    · refine ⟨op₁, op₂, hr.terminator, hr.retarget, ?_⟩
      rw [h.kept hp, redirect_terminator?_self hr.terminator (Op.isTerminator_of_retarget? hr.retarget)]
    · have hne : q ≠ p := fun he => hp (he ▸ hq)
      rw [← hf.wf.redirect_terminator?_of_ne hr.terminator hne]
      exact h.retargeted hq
  reaches_iff := by
    intro b
    rw [h.reaches_iff, hr.reaches_iff hf]
    simp only [hr.reaches_iff hf, List.exists_mem_cons_iff]
    constructor
    case mp =>
      rintro ((hb | ⟨hp, hb⟩) | ⟨hb, q, hq, hr | ⟨hp, _⟩⟩)
      · exact .inl hb
      · exact .inr ⟨hb, .inl hp⟩
      · exact .inr ⟨hb, .inr ⟨q, hq, hr⟩⟩
      · exact .inr ⟨hb, .inl hp⟩
    case mpr =>
      rintro (hb | ⟨hb, hp | ⟨q, hq, hr⟩⟩)
      · exact .inl (.inl hb)
      · exact .inl (.inr ⟨hp, hb⟩)
      · exact .inr ⟨hb, q, hq, .inl hr⟩
  callValues := h.callValues.trans <|
    callValues_redirect hr.terminator (Op.isTerminator_of_retarget? hr.retarget)

theorem mem_successors_iff (h : f.Moved dom old new sources g) (hf : f.Draft) {q : BlockId} :
    b ∈ g.successors q ↔
      q ∉ sources ∧ b ∈ f.successors q ∨
      q ∈ sources ∧ (b = new ∨ b ∈ f.successors q ∧ b ≠ old) := by
  by_cases hq : q ∈ sources
  case neg => simp [hq, successors_congr (h.kept hq)]
  case pos =>
    have ⟨op₁, op₂, h₁, hr, h₂⟩ := h.retargeted hq
    have hn := successors_of_terminator? h₁ ▸ hf.linked.nodup q
    simp [hq, successors_of_terminator? h₁, successors_of_terminator? h₂,
      Op.mem_successors_of_retarget? hr hn]

end Moved

-- All edges can be moved as long as another one keeps `old` on a path.
theorem exists_moved {old new : BlockId} {sources : List BlockId} (hf : f.Draft) (hs : f.Scoped dom)
    (hold : f.Open old) (hold' : f.insts old = []) (hnew : f.Open new) (hnew' : f.insts new = [])
    (hn : sources.Nodup)
    (he : ∀ q ∈ sources, old ∈ f.successors q ∧ new ∉ f.successors q)
    (hd : ∀ q ∈ sources, dom new ⊆ insert new (dom q))
    (hc : ∀ q ∈ sources, f.Reaches q → ∃ c ∉ sources, f.Reaches c ∧ old ∈ f.successors c) :
    ∃ g, sources.forM (retarget · old new) f = .ok () g ∧
      f.Moved dom old new sources g := by
  induction sources generalizing f
  case nil => exact ⟨f, rfl, .nil hf hs⟩
  case cons q sources hi =>
    rw [List.nodup_cons] at hn
    have ⟨hq, hqn⟩ := he q (by simp)
    have ⟨op₁, ht, hm⟩ := terminator?_of_mem_successors hq
    have ⟨op₂, hrt⟩ : ∃ op₂, op₁.retarget? old new = some op₂ := Op.retarget?_isSome hm
    have hr : f.Redirects q old new op₁ op₂ := ⟨ht, hrt, hold, hold', hnew, hnew', hqn, fun hr =>
      have ⟨c, hcn, hcr, hco⟩ := hc q (by simp) hr
      ⟨c, fun he => hcn (by simp [he]), hcr, hco⟩⟩
    have ho {b} : (f.redirect q op₂).Open b ↔ f.Open b :=
      hf.wf.redirect_open_iff ht (Op.isTerminator_of_retarget? hrt)
    have hsucc {p} (hp : p ≠ q) : (f.redirect q op₂).successors p = f.successors p :=
      successors_congr (hf.wf.redirect_terminator?_of_ne ht hp)
    have hqs {p} (hp : p ∈ sources) : p ≠ q := fun he => hn.1 (he ▸ hp)
    have ⟨g, hg, hm⟩ := hi (hr.draft hf) (hs.redirect hf hr (hd q (by simp))) (ho.mpr hold)
      (by simpa using hold') (ho.mpr hnew) (by simpa using hnew') hn.2
      (fun p hp => by rw [hsucc (hqs hp)]; exact he p (by simp [hp]))
      (fun p hp => hd p (by simp [hp])) ?_
    · refine ⟨g, ?_, .cons hf hr hn.1 hm⟩
      rw [List.forM_eq_forM, List.forM_cons, bind_eq_of_eq_ok (retarget_eq_ok ht hrt)]
      exact hg
    · intro p hp hpr
      rcases (hr.reaches_iff hf).mp hpr with hpr | ⟨_, rfl⟩
      · have ⟨c, hcn, hcr, hco⟩ := hc p (by simp [hp]) hpr
        rw [List.mem_cons, not_or] at hcn
        exact ⟨c, hcn.2, (hr.reaches_iff hf).mpr (.inl hcr), hsucc hcn.1 ▸ hco⟩
      · exact absurd (he p (by simp [hp])).1 hnew.not_mem_successors

end Function

end StackCompiler.Ssa
