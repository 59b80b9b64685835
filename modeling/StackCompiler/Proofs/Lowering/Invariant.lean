import StackCompiler.Proofs.Lowering.Meets
import StackCompiler.Proofs.Ssa.Seal
import Mathlib.Data.List.Forall2

-- What holds between any two instructions of a body, whether the code is live or dead, and whether
-- or not the body makes sense.

namespace StackCompiler

namespace Lowering

open Ssa (BlockId Function Scope)

def Operand.Usable (f : Function) (dom : Scope) (b : BlockId) : Operand → Prop
  | value v => ∃ t, f.Usable dom b v t
  | comparison lhs _ rhs => ∃ t, f.Usable dom b lhs t ∧ f.Usable dom b rhs t

-- The blocks that a result has values from.
def Result.sources (r : Result) : List BlockId :=
  r.incoming.map Prod.fst

-- The slot's address is computed before all other code.
def Slot.Declared (f : Function) (slot : Slot) : Prop :=
  ∃ d, f.value? slot.address = some d ∧ d.type = some .ptr ∧ d.block = f.entry

variable {f g : Function} {dom dom' : Scope} {b p : BlockId} {o : Operand}

theorem Operand.Usable.mono (hk : f.Keeps g) (hd : dom b ⊆ dom' p) (ho : o.Usable f dom b) :
    o.Usable g dom' p := by
  cases o
  case value => have ⟨t, hv⟩ := ho; exact ⟨t, hk.usable hd hv⟩
  case comparison => have ⟨t, hl, hr⟩ := ho; exact ⟨t, hk.usable hd hl, hk.usable hd hr⟩

theorem Operand.Usable.of_empty (hw : f.WellFormed) (hi : f.insts b = []) (hk : f.Keeps g)
    (hd : dom b \ {b} ⊆ dom' p) (ho : o.Usable f dom b) : o.Usable g dom' p := by
  have hu {v t} : f.Usable dom b v t → g.Usable dom' p v t := hk.usable_of_empty hw hi hd
  cases o
  case value => have ⟨t, hv⟩ := ho; exact ⟨t, hu hv⟩
  case comparison => have ⟨t, hl, hr⟩ := ho; exact ⟨t, hu hl, hu hr⟩

theorem Slot.Declared.mono {slot : Slot} (hk : f.Keeps g) (he : g.entry = f.entry)
    (h : slot.Declared f) : slot.Declared g :=
  have ⟨_, hd, ht, hb⟩ := h
  have ⟨_, hd⟩ := hk.value hd
  ⟨_, hd, ht, hb.trans he.symm⟩

end Lowering

namespace Lowering.Direct

open Ssa (BlockId Function Op Scope ValueId)

-- The operands that stand on the lowest `h` places of the stack.
def State.below (s : State) (h : Nat) : List Operand :=
  s.stack.drop (s.stack.length - h)

namespace Region

-- The blocks that are passed before the region is entered.
def base (dom : Scope) (r : Region) : Set BlockId :=
  dom r.continuation \ {r.continuation}

def IsIf (r : Region) : Prop :=
  ∃ breaks, r.kind = .if_ breaks

structure Valid (f : Function) (dom : Scope) (r : Region) : Prop where
  -- The continuation waits for its code. Only live code leads to it, unless the region is dead.
  empty : f.insts r.continuation = []
  not_entry : f.entry ≠ some r.continuation
  live_iff : ∀ {p}, r.continuation ∈ f.successors p → (f.Reaches p ↔ r.isLive = true)
  incoming : ∀ {res}, r.result = some res → ∀ i ∈ res.incoming,
    f.Reaches i.1 ∧ i.1.index < f.blocks.size ∧ f.Usable dom i.1 i.2 res.type
  -- The exits that brought a value are all that lead to the continuation.
  merged : ∀ {res}, r.result = some res → ¬r.IsIf →
    res.sources.Nodup ∧ ∀ p, p ∈ res.sources ↔ r.continuation ∈ f.successors p
  -- The condition leads to the continuation too as long as there may be an `else`.
  branched : ∀ {breaks}, r.kind = .if_ breaks →
    breaks.Nodup ∧ (∀ res, r.result = some res → res.sources = breaks) ∧
    ∃ c, c ∉ breaks ∧ ∀ p, r.continuation ∈ f.successors p ↔ p = c ∨ p ∈ breaks
  header : ∀ {h}, r.kind = .loop h → h.index < f.blocks.size ∧ f.NoPhi h ∧
    dom h ⊆ insert h (r.base dom) ∧ (r.isLive = true → f.Reaches h)

-- The region `r` stands inside of `outer`.
structure Within (dom : Scope) (r outer : Region) : Prop where
  live : r.isLive = true → outer.isLive = true
  scope : outer.base dom ⊆ r.base dom
  height : outer.height ≤ r.height

end Region

-- Value `v` is the lowering of a call to function `index`, whose arguments fit the registers.
def LowersCall (callees : List Callee) (f : Function) (v : ValueId) (index : Nat) : Prop :=
  ∃ d callee args, f.value? v = some d ∧ callees[index]? = some callee ∧
    d.op = .call ⟨callee.name, args, d.type⟩ ∧ callee.signature.result = .ok d.type ∧
    List.Forall₂ f.HasType args callee.signature.paramTypes ∧
    ∃ regs, Convention.assign callee.signature.paramTypes = .ok regs

namespace State

-- The active code stands inside of `r`.
structure Within (dom : Scope) (s : State) (r : Region) : Prop where
  live : s.isDead = false → r.isLive = true
  scope : r.base dom ⊆ dom s.block
  height : r.height ≤ s.stack.length

structure Valid (cx : Context) (dom : Scope) (calls : List Nat) (s : State) : Prop where
  draft : s.function.Draft
  scope : s.function.Scoped dom
  -- Only the active block and the continuations still take code.
  opens : ∀ b, s.function.Open b ↔ b = s.block ∨ ∃ r ∈ s.regions, r.continuation = b
  nodup : (s.block :: s.regions.map Region.continuation).Nodup
  live_iff : s.isDead = false ↔ s.function.Reaches s.block
  regions : ∀ r ∈ s.regions, r.Valid s.function dom
  within : ∀ r ∈ s.regions, s.Within dom r
  nested : s.regions.Pairwise (Region.Within dom)
  headers : ∀ r ∈ s.regions, ∀ h, r.kind = .loop h → ∀ o ∈ s.regions, o.continuation ≠ h
  stack : ∀ o ∈ s.stack, o.Usable s.function dom s.block
  below : ∀ r ∈ s.regions, ∀ o ∈ s.below r.height, o.Usable s.function dom r.continuation
  result : s.function.result = cx.result
  slots : ∀ slot ∈ cx.locals, slot.Declared s.function
  calls : List.Forall₂ (LowersCall cx.callees s.function) s.function.callValues calls

-- What changes while code is added to the active block only.
structure Advances (s t : State) : Prop where
  block : t.block = s.block
  regions : t.regions = s.regions
  isDead : t.isDead = s.isDead
  isEnded : t.isEnded = s.isEnded
  function : s.function.Extends t.function
  below : ∀ h ≤ s.floor, t.below h = s.below h

end State

variable {f g : Function} {dom dom' : Scope} {b p : BlockId} {v : ValueId} {op : Op} {r : Region}
variable {name : String} {type : Option Scalar} {cx : Context} {index : Nat} {calls : List Nat}
variable {s t : State} {h : Nat} {o : Operand}

-- A region stays valid under an edit that does not touch the edges to its continuation.
theorem Region.Valid.transport (hr : r.Valid f dom) (hc : r.continuation.index < f.blocks.size)
    (he : f.Evolves dom g dom') (hi : g.insts r.continuation = f.insts r.continuation)
    (hs : ∀ p, r.continuation ∈ g.successors p ↔ r.continuation ∈ f.successors p)
    (hp : ∀ h, r.kind = .loop h → g.NoPhi h) : r.Valid g dom' := by
  have hb : r.base dom' = r.base dom := by simp [base, he.scope _ hc]
  refine ⟨hi ▸ hr.empty, he.entry ▸ hr.not_entry, ?live_iff, ?incoming, ?merged, ?branched, ?header⟩
  case live_iff =>
    intro p hp
    have hp := (hs p).mp hp
    exact (he.reaches_iff_of_mem_successors hp).trans (hr.live_iff hp)
  case incoming =>
    intro res hres i hm
    have ⟨hreach, hc, hu⟩ := hr.incoming hres i hm
    exact ⟨he.reaches hreach, Nat.lt_of_lt_of_le hc he.size,
      he.keeps.usable (he.scope _ hc).symm.subset hu⟩
  case merged =>
    intro res hres hn
    simpa only [hs] using hr.merged hres hn
  case branched =>
    intro breaks hk
    simpa only [hs] using hr.branched hk
  case header =>
    intro h hk
    have ⟨hc, _, hd, hl⟩ := hr.header hk
    refine ⟨Nat.lt_of_lt_of_le hc he.size, hp h hk, ?_, fun hv => he.reaches (hl hv)⟩
    rwa [hb, he.scope _ hc]

theorem LowersCall.mono {callees : List Callee} (hk : f.Keeps g)
    (hv : ∀ {d}, f.value? v = some d → d.op.isTerminator = false → g.value? v = some d)
    (hc : LowersCall callees f v index) : LowersCall callees g v index := by
  have ⟨d, callee, args, hd, hi, hop, hr, ha, hregs⟩ := hc
  refine ⟨d, callee, args, hv hd (by simp [hop, Op.isTerminator]), hi, hop, hr, ?_, hregs⟩
  exact ha.imp fun _ _ => hk.hasType

namespace State

theorem length_below (hh : h ≤ s.stack.length) : (s.below h).length = h := by
  simp [below]
  omega

-- Pushing and popping leave what is below alone.
theorem below_cons {rest : List Operand} (hh : h ≤ rest.length) :
    ({ s with stack := o :: rest } : State).below h = ({ s with stack := rest } : State).below h := by
  simp only [below, List.length_cons]
  rw [show rest.length + 1 - h = (rest.length - h) + 1 by omega, List.drop_succ_cons]

theorem below_below {k : Nat} (hh : h ≤ k) (hk : k ≤ s.stack.length) :
    ({ s with stack := s.below k } : State).below h = s.below h := by
  simp only [below, List.drop_drop, List.length_drop]
  congr 1
  omega

theorem below_self : ({ s with stack := s.below h } : State).below h = s.below h := by
  simp only [below, List.drop_drop, List.length_drop]
  congr 1
  omega

namespace Advances

theorem refl (s : State) : s.Advances s :=
  ⟨rfl, rfl, rfl, rfl, .refl _, fun _ _ => rfl⟩

theorem grows (a : s.Advances t) : s.function.Grows t.function :=
  a.function.grows

theorem entry (a : s.Advances t) : t.function.entry = s.function.entry :=
  a.function.entry

theorem floor (a : s.Advances t) : t.floor = s.floor := by
  simp [State.floor, a.regions]

theorem trans {u : State} (a₁ : s.Advances t) (a₂ : t.Advances u) : s.Advances u where
  block := a₂.block.trans a₁.block
  regions := a₂.regions.trans a₁.regions
  isDead := a₂.isDead.trans a₁.isDead
  isEnded := a₂.isEnded.trans a₁.isEnded
  function := a₁.function.trans a₂.function
  below h hh := (a₂.below h (a₁.floor ▸ hh)).trans (a₁.below h hh)

theorem usable {ty : Scalar} (a : s.Advances t) (hv : s.function.Usable dom s.block v ty) :
    t.function.Usable dom t.block v ty :=
  a.grows.keeps.usable (by rw [a.block]) hv

end Advances

namespace Valid

-- The journal and the numbering of blocks do not matter.
theorem congr (hv : s.Valid cx dom calls) (hf : t.function = s.function) (hb : t.block = s.block)
    (hs : t.stack = s.stack) (hr : t.regions = s.regions) (hd : t.isDead = s.isDead) :
    t.Valid cx dom calls := by
  cases s
  cases t
  simp only at hf hb hs hr hd
  subst hf hb hs hr hd
  exact { hv with within := fun r hr => { hv.within r hr with } }

variable (hv : s.Valid cx dom calls)
include hv

theorem journal (j : Journal) : ({ s with journal := j } : State).Valid cx dom calls :=
  hv.congr rfl rfl rfl rfl rfl

theorem isOpen : s.function.Open s.block :=
  (hv.opens _).mpr (.inl rfl)

theorem isOpen_continuation (hr : r ∈ s.regions) : s.function.Open r.continuation :=
  (hv.opens _).mpr (.inr ⟨r, hr, rfl⟩)

theorem continuation_ne_block (hr : r ∈ s.regions) : r.continuation ≠ s.block := by
  have := List.nodup_cons.mp hv.nodup |>.1
  rintro he
  exact this (List.mem_map.mpr ⟨r, hr, he⟩)

theorem floor_le : s.floor ≤ s.stack.length := by
  unfold floor
  split
  case h_1 => exact Nat.zero_le _
  case h_2 r _ he => exact hv.within r (by simp [he]) |>.height

theorem height_le_floor (hr : r ∈ s.regions) : r.height ≤ s.floor := by
  have hn := hv.nested
  unfold floor
  split
  case h_1 he => simp [he] at hr
  case h_2 r' outer he =>
    rw [he] at hr hn
    rcases List.mem_cons.mp hr with rfl | hr
    · exact Nat.le_refl _
    · exact (List.pairwise_cons.mp hn).1 r hr |>.height

-- Code that stays inside the active block.
theorem emit (hd : (s.function.emit s.block name type op).Draft) (ht : op.isTerminator = false)
    (hf : s.function.Fits dom s.block type op)
    (hp : ∀ r ∈ s.regions, ∀ h, r.kind = .loop h → (s.function.emit s.block name type op).NoPhi h)
    {calls' : List Nat} (hc : List.Forall₂ (LowersCall cx.callees (s.function.emit s.block name type op))
      (s.function.emit s.block name type op).callValues calls') :
    ({ s with function := s.function.emit s.block name type op } : State).Valid cx dom calls' := by
  have ho := hv.isOpen
  have he : s.function.Evolves dom (s.function.emit s.block name type op) dom := .emit hv.draft ho ht
  exact {
    draft := hd
    scope := hv.scope.emit_inner hv.draft ho ht hf
    opens := fun b => by simp [hv.draft.wf.emit_open_iff ho, ht, hv.opens]
    nodup := hv.nodup
    live_iff := hv.live_iff.trans ⟨he.reaches, (hv.draft.wf.emit_reaches_iff_of_not_isTerminator ho ht).mp⟩
    regions := fun r hr => (hv.regions r hr).transport (hv.isOpen_continuation hr).created he
      (Ssa.Function.emit_insts_of_ne (hv.continuation_ne_block hr))
      (fun p => by rw [hv.draft.wf.emit_successors_of_not_isTerminator ho ht]) (hp r hr)
    within := fun r hr => { hv.within r hr with }
    nested := hv.nested
    headers := hv.headers
    stack := fun o hm => (hv.stack o hm).mono .emit subset_rfl
    below := fun r hr o hm => (hv.below r hr o hm).mono .emit subset_rfl
    result := hv.result
    slots := fun slot hs => (hv.slots slot hs).mono .emit rfl
    calls := hc }

theorem calls_emit (hc : op.isCall = false) :
    List.Forall₂ (LowersCall cx.callees (s.function.emit s.block name type op))
      (s.function.emit s.block name type op).callValues calls := by
  rw [Ssa.Function.callValues_emit]
  simpa [hc] using hv.calls.imp fun _ _ => .mono .emit fun hd _ => Ssa.Function.emit_value?_of_some hd

end Valid

end State

end Lowering.Direct

end StackCompiler
