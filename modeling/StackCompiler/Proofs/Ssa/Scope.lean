import StackCompiler.Proofs.Ssa.Draft
import Mathlib.Data.Set.Insert
import Mathlib.Logic.Function.Basic

-- Where values can be used, and at which types. A scope assigns to every block a set of blocks that
-- no path to it can avoid. A value can be used in a block if it is a parameter or stands in a block
-- of its scope.

namespace StackCompiler.Ssa

abbrev Scope := BlockId → Set BlockId

-- The scope that also knows the block `b`, which comes after the blocks of `outer`.
def Scope.extend (dom : Scope) (b : BlockId) (outer : Set BlockId) : Scope :=
  Function.update dom b (insert b outer)

namespace Scope

variable {dom : Scope} {b b₁ : BlockId} {outer : Set BlockId}

@[simp]
theorem extend_self : dom.extend b outer b = insert b outer := by
  simp [extend]

theorem extend_of_ne (h : b₁ ≠ b) : dom.extend b outer b₁ = dom b₁ := by
  simp [extend, h]

end Scope

namespace Function

variable {f g : Function} {dom dom' : Scope} {b b₁ p : BlockId} {v : ValueId} {d : ValueDef} {op : Op}
variable {t : Scalar} {name : String} {type : Option Scalar}

def HasType (f : Function) (v : ValueId) (t : Scalar) : Prop :=
  ∃ d, f.value? v = some d ∧ d.type = some t

def Usable (f : Function) (dom : Scope) (b : BlockId) (v : ValueId) (t : Scalar) : Prop :=
  ∃ d, f.value? v = some d ∧ d.type = some t ∧ ∀ x, d.block = some x → x ∈ dom b

-- An operation fits in block `b` if it can use its operands there, at the types it needs. What a phi
-- takes must be usable where it comes from, and a function with a result can only give up on it
-- where no path leads.
def Fits (f : Function) (dom : Scope) (b : BlockId) (type : Option Scalar) : Op → Prop
  | .param _ => False
  | .const _ | .alloc _ _ | .globalAddr _ | .jump _ => True
  | .binary _ lhs rhs => ∃ t, type = some t ∧ f.Usable dom b lhs t ∧ f.Usable dom b rhs t
  | .neg operand => ∃ t, type = some t ∧ t.isFloat = true ∧ f.Usable dom b operand t
  | .cast operand => ∃ t, f.Usable dom b operand t
  | .load address => f.Usable dom b address .ptr
  | .store value address => (∃ t, f.Usable dom b value t) ∧ f.Usable dom b address .ptr
  | .phi incoming => ∃ t, type = some t ∧
      ∀ i ∈ incoming, i.1.index < f.blocks.size ∧ f.Usable dom i.1 i.2 t
  | .call c => ∀ arg ∈ c.args, ∃ t, f.Usable dom b arg t
  | .branch lhs _ rhs _ _ => ∃ t, f.Usable dom b lhs t ∧ f.Usable dom b rhs t
  | .ret value => ∃ t, f.result = some t ∧ f.Usable dom b value t
  | .exit => f.result = none ∨ ¬f.Reaches b

-- Every value of `f` is one of `g`. At most its operation is another one.
structure Keeps (f g : Function) : Prop where
  name : g.name = f.name
  value : ∀ {v d}, f.value? v = some d → ∃ op, g.value? v = some { d with op := op }

theorem Usable.hasType (h : f.Usable dom b v t) : f.HasType v t :=
  have ⟨d, hd, ht, _⟩ := h
  ⟨d, hd, ht⟩

theorem HasType.unique {t₁ t₂ : Scalar} (h₁ : f.HasType v t₁) (h₂ : f.HasType v t₂) : t₁ = t₂ := by
  have ⟨_, hd₁, ht₁⟩ := h₁
  have ⟨_, hd₂, ht₂⟩ := h₂
  cases hd₁.symm.trans hd₂
  exact Option.some.inj (ht₁.symm.trans ht₂)

namespace Keeps

theorem refl (f : Function) : f.Keeps f where
  name := rfl
  value {_ d} hd := ⟨d.op, hd⟩

theorem trans {e : Function} (h₁ : e.Keeps f) (h₂ : f.Keeps g) : e.Keeps g where
  name := h₂.name.trans h₁.name
  value hd :=
    have ⟨_, hd⟩ := h₁.value hd
    have ⟨op, hd⟩ := h₂.value hd
    ⟨op, hd⟩

theorem addBlock : f.Keeps (f.addBlock name).2 where
  name := rfl
  value {_ d} hd := ⟨d.op, hd⟩

theorem addParam {type : Scalar} : f.Keeps (f.addParam name type).2 where
  name := rfl
  value {_ d} hd := ⟨d.op, Grows.addParam.value hd⟩

theorem emit : f.Keeps (f.emit p name type op) where
  name := rfl
  value {_ d} hd := ⟨d.op, emit_value?_of_some hd⟩

theorem redirect {o op₁ : Op} (ho : f.terminator? p = some op₁) : f.Keeps (f.redirect p o) where
  name := redirect_name
  value hd :=
    have ⟨op, hd, _⟩ := redirect_value?_of_some ho hd
    ⟨op, hd⟩

theorem hasType (hk : f.Keeps g) (h : f.HasType v t) : g.HasType v t :=
  have ⟨_, hd, ht⟩ := h
  have ⟨_, hd⟩ := hk.value hd
  ⟨_, hd, ht⟩

theorem usable (hk : f.Keeps g) (hd : dom b ⊆ dom' b₁) (h : f.Usable dom b v t) :
    g.Usable dom' b₁ v t :=
  have ⟨_, hv, ht, hb⟩ := h
  have ⟨_, hv⟩ := hk.value hv
  ⟨_, hv, ht, fun x hx => hd (hb x hx)⟩

-- No value stands in an empty block.
theorem usable_of_empty (hk : f.Keeps g) (hw : f.WellFormed) (hi : f.insts b = [])
    (hd : dom b \ {b} ⊆ dom' b₁) (h : f.Usable dom b v t) : g.Usable dom' b₁ v t := by
  have ⟨d, hv, ht, hb⟩ := h
  have ⟨_, hv'⟩ := hk.value hv
  refine ⟨_, hv', ht, fun x hx => hd ⟨hb x hx, ?_⟩⟩
  rintro rfl
  simpa [hi] using hw.lists hv hx

end Keeps

theorem Grows.keeps (h : f.Grows g) : f.Keeps g where
  name := h.name
  value {_ d} hd := ⟨d.op, h.value hd⟩

namespace Fits

section Rules

variable {lhs rhs address operand : ValueId}

theorem const {c : Constant} : f.Fits dom b type (.const c) :=
  trivial

theorem globalAddr {id : GlobalId} : f.Fits dom b type (.globalAddr id) :=
  trivial

theorem alloc {size align : Nat} : f.Fits dom b type (.alloc size align) :=
  trivial

theorem phi {incoming : List (BlockId × ValueId)}
    (hi : ∀ i ∈ incoming, i.1.index < f.blocks.size ∧ f.Usable dom i.1 i.2 t) :
    f.Fits dom b (some t) (.phi incoming) :=
  ⟨t, rfl, hi⟩

theorem jump {target : BlockId} : f.Fits dom b type (.jump target) :=
  trivial

theorem binary {op : BinaryOp} (hl : f.Usable dom b lhs t) (hr : f.Usable dom b rhs t) :
    f.Fits dom b (some t) (.binary op lhs rhs) :=
  ⟨t, rfl, hl, hr⟩

theorem neg (hf : t.isFloat = true) (ho : f.Usable dom b operand t) :
    f.Fits dom b (some t) (.neg operand) :=
  ⟨t, rfl, hf, ho⟩

theorem cast (ho : f.Usable dom b operand t) : f.Fits dom b type (.cast operand) :=
  ⟨t, ho⟩

theorem load (ha : f.Usable dom b address .ptr) : f.Fits dom b type (.load address) :=
  ha

theorem store (hv : f.Usable dom b v t) (ha : f.Usable dom b address .ptr) :
    f.Fits dom b type (.store v address) :=
  ⟨⟨t, hv⟩, ha⟩

theorem branch {cond : Comparison} {yes no : BlockId} (hl : f.Usable dom b lhs t)
    (hr : f.Usable dom b rhs t) : f.Fits dom b type (.branch lhs cond rhs yes no) :=
  ⟨t, hl, hr⟩

theorem ret (hr : f.result = some t) (hv : f.Usable dom b v t) : f.Fits dom b type (.ret v) :=
  ⟨t, hr, hv⟩

end Rules

-- What fits stays fitting while the function grows.
theorem mono (hk : f.Keeps g) (hr : g.result = f.result) (hs : f.blocks.size ≤ g.blocks.size)
    (hd : ∀ x : BlockId, x.index < f.blocks.size → dom x ⊆ dom' x) (hb : b.index < f.blocks.size)
    (he : op = .exit → g.Reaches b → f.Reaches b) (h : f.Fits dom b type op) :
    g.Fits dom' b type op := by
  have hu {v t} : f.Usable dom b v t → g.Usable dom' b v t := hk.usable (hd b hb)
  cases op <;> simp only [Fits] at h ⊢
  case binary => have ⟨t, ht, hl, hr⟩ := h; exact ⟨t, ht, hu hl, hu hr⟩
  case neg => have ⟨t, ht, hf, ho⟩ := h; exact ⟨t, ht, hf, hu ho⟩
  case cast => have ⟨t, ho⟩ := h; exact ⟨t, hu ho⟩
  case load => exact hu h
  case store => have ⟨⟨t, hv⟩, ha⟩ := h; exact ⟨⟨t, hu hv⟩, hu ha⟩
  case phi =>
    have ⟨t, ht, hi⟩ := h
    refine ⟨t, ht, fun i hm => ?_⟩
    have ⟨hc, hi⟩ := hi i hm
    exact ⟨Nat.lt_of_lt_of_le hc hs, hk.usable (hd i.1 hc) hi⟩
  case call => intro arg ha; have ⟨t, ha⟩ := h arg ha; exact ⟨t, hu ha⟩
  case branch => have ⟨t, hl, hr⟩ := h; exact ⟨t, hu hl, hu hr⟩
  case ret => have ⟨t, ht, hv⟩ := h; exact ⟨t, hr ▸ ht, hu hv⟩
  case exit =>
    rcases h with h | h
    · exact .inl (hr ▸ h)
    · exact .inr (mt (he rfl) h)

theorem usable_of_mem_operands (h : f.Fits dom b type op) (hp : op.isPhi = false)
    (hv : v ∈ op.operands) : ∃ t, f.Usable dom b v t := by
  cases op <;> simp only [Fits] at h <;> simp [Op.operands, Op.isPhi] at hv hp
  case binary =>
    obtain ⟨t, _, hl, hr⟩ := h
    rcases hv with rfl | rfl
    · exact ⟨t, hl⟩
    · exact ⟨t, hr⟩
  case neg =>
    obtain ⟨t, _, _, ho⟩ := h
    exact ⟨t, hv ▸ ho⟩
  case cast => exact hv ▸ h
  case load => exact ⟨.ptr, hv ▸ h⟩
  case store =>
    rcases hv with rfl | rfl
    · exact h.1
    · exact ⟨.ptr, h.2⟩
  case call => exact h v hv
  case branch =>
    obtain ⟨t, hl, hr⟩ := h
    rcases hv with rfl | rfl
    · exact ⟨t, hl⟩
    · exact ⟨t, hr⟩
  case ret =>
    obtain ⟨t, _, ho⟩ := h
    exact ⟨t, hv ▸ ho⟩

-- The targets of a terminator do not matter.
theorem retarget {old new : BlockId} {op' : Op} (h : f.Fits dom b type op)
    (hr : op.retarget? old new = some op') : f.Fits dom b type op' := by
  cases op <;> simp only [Op.retarget?] at hr <;> grind [Fits]

end Fits

-- A scope that is right about the edges of a function, and in which every instruction fits.
structure Scoped (f : Function) (dom : Scope) : Prop where
  self : ∀ {b}, b.index < f.blocks.size → b ∈ dom b
  root : ∀ {b e}, b.index < f.blocks.size → f.entry = some e → e ∈ dom b
  created : ∀ {b x}, b.index < f.blocks.size → x ∈ dom b → x.index < f.blocks.size
  entry : ∀ {e}, f.entry = some e → dom e ⊆ {e}
  edge : ∀ {p b}, b ∈ f.successors p → dom b ⊆ insert b (dom p)
  fits : ∀ {v d b}, f.value? v = some d → d.block = some b → f.Fits dom b d.type d.op
  ordered : ∀ {v d}, f.value? v = some d → d.op.isPhi = false → ∀ u ∈ d.op.operands, u.index < v.index

namespace Scoped

variable (h : f.Scoped dom)
include h

-- A new block is entered only behind the blocks of `outer`, if at all.
theorem addBlock (hf : f.Draft) {outer : Set BlockId} (ho : ∀ x ∈ outer, x.index < f.blocks.size)
    (hr : ∀ e, f.entry = some e → e ∈ outer) :
    (f.addBlock name).2.Scoped (dom.extend f.freshBlock outer) := by
  have hne {b : BlockId} (hb : b.index < f.blocks.size) : b ≠ f.freshBlock := ne_freshBlock hb
  have hor {b : BlockId} (hb : b.index < f.blocks.size + 1) :
      b = f.freshBlock ∨ b.index < f.blocks.size := by
    by_cases he : b.index = f.blocks.size
    · exact .inl (by cases b; simp_all [freshBlock])
    · exact .inr (by omega)
  have hentry : (f.addBlock name).2.entry = f.entry := addBlock_entry hf.entry
  refine ⟨?self, ?root, ?created, ?entry, ?edge, ?fits, h.ordered⟩
  case self =>
    intro b hb
    rcases hor (by simpa using hb) with rfl | hb
    · simp
    · rw [Scope.extend_of_ne (hne hb)]
      exact h.self hb
  case root =>
    intro b e hb he
    rw [hentry] at he
    rcases hor (by simpa using hb) with rfl | hb
    · simp [hr e he]
    · rw [Scope.extend_of_ne (hne hb)]
      exact h.root hb he
  case created =>
    intro b x hb hx
    simp only [addBlock_size]
    rcases hor (by simpa using hb) with rfl | hb
    · rcases (by simpa using hx) with rfl | hx
      · simp
      · exact Nat.lt_succ_of_lt (ho x hx)
    · rw [Scope.extend_of_ne (hne hb)] at hx
      exact Nat.lt_succ_of_lt (h.created hb hx)
  case entry =>
    intro e he
    rw [hentry] at he
    rw [Scope.extend_of_ne (hne (hf.wf.entry_created he))]
    exact h.entry he
  case edge =>
    intro p b hb
    rw [addBlock_successors] at hb
    rw [Scope.extend_of_ne (hne (hf.linked.created hb)),
      Scope.extend_of_ne (hne (created_of_mem_successors hb))]
    exact h.edge hb
  case fits =>
    intro v d b hd hb
    have hbc := created_of_mem_insts (hf.wf.lists hd hb)
    refine (h.fits hd hb).mono .addBlock rfl (by simp) (fun x hx => ?_) hbc fun _ =>
      (addBlock_reaches_iff hf.entry).mp
    rw [Scope.extend_of_ne (hne hx)]

theorem addBlock_behind (hf : f.Draft) (hp : p.index < f.blocks.size) :
    (f.addBlock name).2.Scoped (dom.extend f.freshBlock (dom p)) :=
  h.addBlock hf (fun _ => h.created hp) fun _ => h.root hp

theorem addParam {type : Scalar} (hf : f.Draft) : (f.addParam name type).2.Scoped dom where
  self := h.self
  root := h.root
  created := h.created
  entry := h.entry
  edge hb := h.edge (hf.wf.addParam_successors ▸ hb)
  fits {v d b} hd hb := by
    rw [addParam_value?] at hd
    split at hd
    case isTrue => cases hd; cases hb
    case isFalse =>
      exact (h.fits hd hb).mono .addParam rfl (Nat.le_refl _) (fun _ _ => subset_rfl)
        (created_of_mem_insts (hf.wf.lists hd hb)) fun _ => hf.wf.addParam_reaches_iff.mp
  ordered {v d} hd hp u hu := by
    rw [addParam_value?] at hd
    split at hd
    case isTrue => cases hd; cases hu
    case isFalse => exact h.ordered hd hp u hu

theorem emit (hf : f.Draft) (ho : f.Open p) (hfit : f.Fits dom p type op)
    (hs : ∀ b ∈ (f.emit p name type op).successors p, dom b ⊆ insert b (dom p))
    (he : ∀ b, ¬f.Open b ∨ b = p ∧ op = .exit → (f.emit p name type op).Reaches b → f.Reaches b) :
    (f.emit p name type op).Scoped dom := by
  refine ⟨?self, ?root, ?created, ?entry, ?edge, ?fits, ?ordered⟩
  case self => exact fun hb => h.self (by simpa using hb)
  case root => exact fun hb he => h.root (by simpa using hb) he
  case created => exact fun hb hx => by simpa using h.created (by simpa using hb) hx
  case entry => exact h.entry
  case edge =>
    intro q b hb
    by_cases hq : q = p
    case pos => subst hq; exact hs b hb
    case neg => rw [hf.wf.emit_successors_of_ne hq] at hb; exact h.edge hb
  case fits =>
    intro v d b hd hb
    rw [emit_value?] at hd
    split at hd
    case isTrue =>
      cases hd
      cases hb
      exact hfit.mono .emit rfl (by simp) (fun _ _ => subset_rfl) ho.created
        fun hx => he p (.inr ⟨rfl, hx⟩)
    case isFalse =>
      have hv := hf.wf.lists hd hb
      refine (h.fits hd hb).mono .emit rfl (by simp) (fun _ _ => subset_rfl)
        (created_of_mem_insts hv) fun hx => he b (.inl fun hop => ?_)
      have := hf.wf.isTerminator_eq_false_of_open hop hv hd
      simp [hx, Op.isTerminator] at this
  case ordered =>
    intro v d hd hp u hu
    rw [emit_value?] at hd
    split at hd
    case isTrue hv =>
      cases hd
      obtain ⟨_, _, hu, _⟩ := hfit.usable_of_mem_operands hp hu
      simpa [hv] using index_lt_of_value? hu
    case isFalse => exact h.ordered hd hp u hu

-- An instruction inside a block.
theorem emit_inner (hf : f.Draft) (ho : f.Open p) (ht : op.isTerminator = false)
    (hfit : f.Fits dom p type op) : (f.emit p name type op).Scoped dom := by
  refine h.emit hf ho hfit (fun b hb => ?_) fun b _ => ?_
  · simp [hf.wf.emit_successors_of_not_isTerminator ho ht, ho.not_mem_successors] at hb
  · exact (hf.wf.emit_reaches_iff_of_not_isTerminator ho ht).mp

theorem close (hf : f.Draft) (ho : f.Open p) (hc : f.Closes p op) (hfit : f.Fits dom p type op)
    (hs : ∀ b ∈ op.successors, dom b ⊆ insert b (dom p)) :
    (f.emit p name type op).Scoped dom := by
  refine h.emit hf ho hfit (fun b hb => ?_) fun b hor hb => ?_
  · exact hs b (by rwa [emit_successors_self ho hc.isTerminator] at hb)
  · rcases hor with hb' | ⟨rfl, rfl⟩
    · exact hf.reaches_of_emit_reaches ho hc hb' hb
    · simpa [hf.wf.emit_reaches_iff ho hc.isTerminator hc.ends, Op.successors] using hb

theorem redirect {old new : BlockId} {op₁ op₂ : Op} (hf : f.Draft)
    (hr : f.Redirects p old new op₁ op₂) (hs : dom new ⊆ insert new (dom p)) :
    (f.redirect p op₂).Scoped dom := by
  refine ⟨?self, ?root, ?created, ?entry, ?edge, ?fits, ?ordered⟩
  case self => exact fun hb => h.self (by simpa using hb)
  case root => exact fun hb he => h.root (by simpa using hb) (by simpa using he)
  case created => exact fun hb hx => by simpa using h.created (by simpa using hb) hx
  case entry => exact fun he => h.entry (by simpa using he)
  case edge =>
    intro q b hb
    rcases (hr.mem_successors_iff hf q).mp hb with ⟨_, hb⟩ | ⟨rfl, rfl | ⟨hb, _⟩⟩
    · exact h.edge hb
    · exact hs
    · exact h.edge hb
  case fits =>
    intro v d b hd hb
    have ⟨op', hd', hor⟩ := exists_of_redirect_value? hr.terminator hd
    have hfit : f.Fits dom b d.type d.op := by
      have hfit : f.Fits dom b d.type op' := h.fits hd' hb
      rcases hor with he | ⟨he₁, he₂⟩
      · exact he ▸ hfit
      · rw [he₁] at hfit
        exact he₂ ▸ hfit.retarget hr.retarget
    have hv := hf.wf.lists hd' hb
    refine hfit.mono (.redirect hr.terminator) (by simp) (by simp) (fun _ _ => subset_rfl)
      (created_of_mem_insts hv) fun _ hreach => ?_
    rcases (hr.reaches_iff hf).mp hreach with hreach | ⟨_, rfl⟩
    · exact hreach
    · simp [hr.new_empty] at hv
  case ordered =>
    intro v d hd hp u hu
    have ⟨op', hd', hor⟩ := exists_of_redirect_value? hr.terminator hd
    have hop : op'.operands = d.op.operands := by
      rcases hor with he | ⟨he₁, he₂⟩
      · rw [he]
      · rw [he₁, he₂, Op.operands_of_retarget? hr.retarget]
    have hp' : op'.isPhi = false := by
      rcases hor with he | ⟨he, _⟩
      · exact he ▸ hp
      · have := isTerminator_of_terminator? hr.terminator
        rw [he]
        cases op₁ <;> simp_all [Op.isTerminator, Op.isPhi]
    exact h.ordered hd' hp' u (hop ▸ hu)

end Scoped

-- What all edits have in common: nothing is lost, and only open blocks can become reachable.
structure Evolves (f : Function) (dom : Scope) (g : Function) (dom' : Scope) : Prop where
  keeps : f.Keeps g
  entry : g.entry = f.entry
  result : g.result = f.result
  size : f.blocks.size ≤ g.blocks.size
  scope : ∀ b : BlockId, b.index < f.blocks.size → dom' b = dom b
  opens : ∀ {b : BlockId}, b.index < f.blocks.size → g.Open b → f.Open b
  reaches : ∀ {b}, f.Reaches b → g.Reaches b
  closed : ∀ {b : BlockId}, b.index < f.blocks.size → ¬f.Open b → g.Reaches b → f.Reaches b

namespace Evolves

theorem reaches_iff_of_mem_successors (h : f.Evolves dom g dom') (hb : b ∈ f.successors p) :
    g.Reaches p ↔ f.Reaches p :=
  ⟨h.closed (created_of_mem_successors hb) fun ho => ho.not_mem_successors hb, h.reaches⟩

theorem refl : f.Evolves dom f dom where
  keeps := .refl f
  entry := rfl
  result := rfl
  size := Nat.le_refl _
  scope _ _ := rfl
  opens _ := id
  reaches := id
  closed _ _ := id

theorem trans {e : Function} {dom₀ : Scope} (h₁ : e.Evolves dom₀ f dom) (h₂ : f.Evolves dom g dom') :
    e.Evolves dom₀ g dom' where
  keeps := h₁.keeps.trans h₂.keeps
  entry := h₂.entry.trans h₁.entry
  result := h₂.result.trans h₁.result
  size := Nat.le_trans h₁.size h₂.size
  scope b hb := (h₂.scope b (Nat.lt_of_lt_of_le hb h₁.size)).trans (h₁.scope b hb)
  opens hb ho := h₁.opens hb (h₂.opens (Nat.lt_of_lt_of_le hb h₁.size) ho)
  reaches hb := h₂.reaches (h₁.reaches hb)
  closed hb hn hr :=
    h₁.closed hb hn <| h₂.closed (Nat.lt_of_lt_of_le hb h₁.size) (fun ho => hn (h₁.opens hb ho)) hr

theorem addBlock (hf : f.Draft) {outer : Set BlockId} :
    f.Evolves dom (f.addBlock name).2 (dom.extend f.freshBlock outer) where
  keeps := .addBlock
  entry := addBlock_entry hf.entry
  result := rfl
  size := by simp
  scope b hb := Scope.extend_of_ne (ne_freshBlock hb)
  opens hb ho := (addBlock_open_iff.mp ho).resolve_right (ne_freshBlock hb)
  reaches := (addBlock_reaches_iff hf.entry).mpr
  closed _ _ := (addBlock_reaches_iff hf.entry).mp

theorem emit (hf : f.Draft) (ho : f.Open p) (ht : op.isTerminator = false) :
    f.Evolves dom (f.emit p name type op) dom where
  keeps := .emit
  entry := rfl
  result := rfl
  size := by simp
  scope _ _ := rfl
  opens _ hb := ((hf.wf.emit_open_iff ho).mp hb).1
  reaches := (hf.wf.emit_reaches_iff_of_not_isTerminator ho ht).mpr
  closed _ _ := (hf.wf.emit_reaches_iff_of_not_isTerminator ho ht).mp

theorem close (hf : f.Draft) (ho : f.Open p) (hc : f.Closes p op) :
    f.Evolves dom (f.emit p name type op) dom where
  keeps := .emit
  entry := rfl
  result := rfl
  size := by simp
  scope _ _ := rfl
  opens _ hb := ((hf.wf.emit_open_iff ho).mp hb).1
  reaches := hf.reaches_emit ho hc
  closed _ := hf.reaches_of_emit_reaches ho hc

theorem redirect {old new : BlockId} {op₁ op₂ : Op} (hf : f.Draft)
    (hr : f.Redirects p old new op₁ op₂) : f.Evolves dom (f.redirect p op₂) dom where
  keeps := .redirect hr.terminator
  entry := by simp
  result := by simp
  size := by simp
  scope _ _ := rfl
  opens _ := (hf.wf.redirect_open_iff hr.terminator (Op.isTerminator_of_retarget? hr.retarget)).mp
  reaches hb := (hr.reaches_iff hf).mpr (.inl hb)
  closed _ hb hg := by
    rcases (hr.reaches_iff hf).mp hg with hg | ⟨_, rfl⟩
    · exact hg
    · exact absurd hr.new_open hb

end Evolves

end Function

end StackCompiler.Ssa
