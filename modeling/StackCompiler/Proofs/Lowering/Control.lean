import StackCompiler.Proofs.Lowering.Transfer

-- The instructions that open, leave and close regions. Each is taken apart into the states that it
-- can lead to, and none of them breaks what holds between instructions.

namespace StackCompiler.Lowering.Direct

open Bytecode (BlockType)
open Ssa (BlockId Function Op Scope ValueId)

variable {cx : Context} {dom : Scope} {calls : List Nat} {s t : State} {op : Op} {r : Region}
variable {opcode : String} {kind : RegionKind} {result : Option Result} {depth : Nat}
variable {target : BlockId} {rs : List Region}

namespace State

-- Adds an empty block.
def grow (s : State) : State :=
  { s with
    journal := s.journal.record (.blockNumbered (s.blockCount + 1)) |>.record .blockCreated
    blockCount := s.blockCount + 1
    function := s.function.addBlock
      (s.function.name ++ "_block" ++ toString (s.blockCount + 1)) |>.2 }

theorem freshBlock_ne (s : State) : s.function.freshBlock ≠ s.grow.function.freshBlock :=
  Function.ne_freshBlock (by simp [grow])

-- Goes on in the first one of two fresh blocks.
def fork (s : State) (op : Op) : State :=
  { s.grow.grow.emit "" none op with block := s.function.freshBlock }

-- Goes on in a fresh region.
def enter (s : State) (kind : RegionKind) (op : Op) (result : Option Result) : State :=
  { s.fork op with
    regions := ⟨kind, s.grow.function.freshBlock, result, s.stack.length, !s.isDead⟩ :: s.regions }

-- Goes on in a fresh block that nothing leads to.
def die (s : State) : State :=
  { s.grow with
    block := s.function.freshBlock
    stack := s.below s.floor
    isDead := true }

-- Where live code goes that branches out of regions, and what the regions know of it.
inductive Exits (s : State) (depth : Nat) : BlockId → List Region → Prop
  | restart {r : Region} {header : BlockId} (hr : s.regions[depth]? = some r)
    (hk : r.kind = .loop header) : Exits s depth header s.regions
  | leave {r : Region} {after : Option Result} (hr : s.regions[depth]? = some r)
    (hk : ∀ header, r.kind ≠ .loop header) (hh : s.Hands r.result after) :
    Exits s depth r.continuation (s.regions.set depth (r.exit s.block after))

-- How live code returns from the function, with the top of the stack if there is a result.
inductive Yields (cx : Context) (s : State) : Op → Prop
  | nothing (hr : cx.result = none) : Yields cx s .exit
  | value {ty : Scalar} {v : ValueId} (hr : cx.result = some ty)
    (hs : s.stack.head? = some (.value v)) (ht : s.function.HasType v ty) : Yields cx s (.ret v)

-- The state in which it does so.
structure Returns (cx : Context) (s u : State) (op : Op) : Prop where
  yields : s.Yields cx op
  popped : u = s ∨ ∃ o rest, s.stack = o :: rest ∧ s.floor ≤ rest.length ∧ u = { s with stack := rest }

-- What follows a branch in live code.
inductive Leaves (cx : Context) (s : State) (depth : Nat) : State → Prop
  | returns {u : State} {op : Op} (hd : depth = s.regions.length) (hr : s.Returns cx u op) :
    Leaves cx s depth (u.emit "" none op).die
  | exits {b : BlockId} {regions : List Region} (he : s.Exits depth b regions) :
    Leaves cx s depth ({ s with regions := regions }.emit "" none (.jump b)).die

-- What follows a conditional branch in live code. A conditional return has a block of its own.
inductive Forks (cx : Context) (s : State) (lhs : ValueId) (cond : Comparison) (rhs : ValueId)
    (depth : Nat) : State → Prop
  | exits {b : BlockId} {regions : List Region} (he : s.Exits depth b regions) :
    Forks cx s lhs cond rhs depth
      { { s with regions := regions }.grow.emit "" none
          (.branch lhs cond rhs b s.function.freshBlock) with
        block := s.function.freshBlock }
  | returns {op : Op} (hd : depth = s.regions.length) (hy : s.Yields cx op) :
    Forks cx s lhs cond rhs depth
      { (s.fork (.branch lhs cond rhs s.function.freshBlock s.grow.function.freshBlock)).emit
          "" none op with
        block := s.grow.function.freshBlock }

end State

@[simp]
theorem meets_newBlock {Q : BlockId → State → Prop} :
    Meets newBlock s Q ↔ Q s.function.freshBlock s.grow :=
  .rfl

@[simp]
theorem meets_truncate {h : Nat} {Q : Unit → State → Prop} :
    Meets (truncate h) s Q ↔ Q () { s with stack := s.below h } :=
  .rfl

theorem enterDeadBlock_meets {Q : Unit → State → Prop} : Meets enterDeadBlock s Q ↔ Q () s.die :=
  .rfl

theorem meets_perform {Q : Unit → State → Prop} (hw : s.function.WellFormed)
    (ho : s.function.Open s.block) : Meets (perform op) s Q ↔ Q () (s.emit "" none op) := by
  rw [perform, meets_discard]
  simp only [Meets, append_eq_ok hw ho]

theorem meets_define {name : String} {ty : Scalar} {Q : ValueId → State → Prop}
    (hw : s.function.WellFormed) (ho : s.function.Open s.block) :
    Meets (define name ty op) s Q ↔ Q s.function.freshValue (s.emit name (some ty) op) := by
  simp only [define, Meets, append_eq_ok hw ho]

theorem State.wellFormed_grow (hw : s.function.WellFormed) : s.grow.function.WellFormed :=
  hw.addBlock

theorem State.open_grow {b : BlockId} (ho : s.function.Open b) : s.grow.function.Open b :=
  Function.addBlock_open_iff.mpr (.inl ho)

namespace State.Valid

variable (hv : s.Valid cx dom calls)
include hv

theorem fork (ht : op.isTerminator = true) (hn : op.successors.Nodup)
    (he : ∀ b ∈ op.successors, b = s.function.freshBlock ∨ b = s.grow.function.freshBlock)
    (hf : s.function.Fits dom s.block none op) :
    ∃ dom', s.function.Sealed dom s.block op [s.function.freshBlock, s.grow.function.freshBlock]
        (s.fork op).function dom' ∧
      dom' s.function.freshBlock = insert s.function.freshBlock (dom s.block) ∧
      dom' s.grow.function.freshBlock = insert s.grow.function.freshBlock (dom s.block) :=
  Function.Sealed.fork hv.draft hv.scope hv.isOpen ht hn he hf

theorem behind {outer : Set BlockId} (hsub : outer ⊆ dom s.block)
    (hr : ∀ e, s.function.entry = some e → e ∈ outer) (ht : op.isTerminator = true)
    (hn : op.successors.Nodup)
    (he : ∀ b ∈ op.successors, b = s.function.freshBlock ∨ s.function.Target dom s.block b)
    (hf : s.function.Fits dom s.block none op) :
    s.function.Sealed dom s.block op [s.function.freshBlock] (s.grow.emit "" none op).function
      (dom.extend s.function.freshBlock outer) :=
  have hx (x : BlockId) (hx : x ∈ outer) := hv.scope.created hv.isOpen.created (hsub hx)
  .close_behind hv.draft hv.scope hv.isOpen hx hr hsub ht hn he hf

-- The active block leads nowhere.
theorem sealed_close (ht : op.isTerminator = true) (hn : op.successors = [])
    (hf : s.function.Fits dom s.block none op) :
    s.function.Sealed dom s.block op [] (s.function.emit s.block "" none op) dom :=
  .close hv.draft hv.scope hv.isOpen ht (by simp [hn]) (by simp [hn]) hf

theorem enter (he : Enters s.function.freshBlock s.grow.function.freshBlock kind op)
    (hf : s.function.Fits dom s.block none op)
    (hres : ∀ res, result = some res → res.incoming = []) :
    ∃ dom', (s.enter kind op result).Valid cx dom' calls := by
  have hne := s.freshBlock_ne
  have ⟨dom', hs, hi, hx⟩ := hv.fork (by cases he <;> rfl)
    (by cases he <;> simp [Op.successors, hne]) (by cases he <;> simp [Op.successors]) hf
  exact ⟨dom', hv.start hs hne he hi hx hres rfl rfl rfl rfl⟩

end State.Valid

section Start

variable {type : BlockType}

theorem incoming_of_resultOf (h : resultOf type = .ok result) (res : Result)
    (hr : result = some res) : res.incoming = [] := by
  cases type <;> simp [resultOf] at h <;> simp [← h] at hr
  simp [← hr]

theorem resultOf_meets {Q : Option Result → State → Prop}
    (h : ∀ res, resultOf type = .ok res → Q res s) : Meets (ofExcept (resultOf type)) s Q := by
  cases type
  case signature => trivial
  all_goals exact h _ rfl

theorem startBlock_meets (hv : s.Valid cx dom calls) :
    Meets (startBlock type) s fun _ t => ∃ res, resultOf type = .ok res ∧
      t = s.enter .block (.jump s.function.freshBlock) res := by
  simp only [startBlock, meets_bind]
  refine resultOf_meets fun res hr => ?_
  have hw := State.wellFormed_grow (State.wellFormed_grow hv.draft.wf)
  simp only [meets_newBlock, meets_perform hw (State.open_grow (State.open_grow hv.isOpen))]
  exact ⟨res, hr, rfl⟩

theorem startLoop_meets (hv : s.Valid cx dom calls) :
    Meets (startLoop type) s fun _ t => ∃ res, resultOf type = .ok res ∧
      t = s.enter (.loop s.function.freshBlock) (.jump s.function.freshBlock) res := by
  simp only [startLoop, meets_bind]
  refine resultOf_meets fun res hr => ?_
  have hw := State.wellFormed_grow (State.wellFormed_grow hv.draft.wf)
  simp only [meets_newBlock, meets_perform hw (State.open_grow (State.open_grow hv.isOpen))]
  exact ⟨res, hr, rfl⟩

theorem startIf_meets (hv : s.Valid cx dom calls) :
    Meets (startIf opcode type) s fun _ t => ∃ lhs cond rhs u res,
      popCondition opcode s = .ok (lhs, cond, rhs) u ∧ Inside cx dom calls s u ∧
      (∃ ty, u.function.Usable dom u.block lhs ty ∧ u.function.Usable dom u.block rhs ty) ∧
      resultOf type = .ok res ∧
      t = u.enter (.if_ []) (.branch lhs cond rhs u.function.freshBlock u.grow.function.freshBlock)
        res := by
  simp only [startIf, meets_bind]
  refine (popCondition_meets hv).eq_ok.mono fun d u h => ?_
  obtain ⟨lhs, cond, rhs⟩ := d
  obtain ⟨hx, hi, hu⟩ := h
  have hw := State.wellFormed_grow (State.wellFormed_grow hi.valid.draft.wf)
  have ho := State.open_grow (State.open_grow hi.valid.isOpen)
  simp only [meets_newBlock, meets_perform hw ho, meets_setBlock]
  refine resultOf_meets fun res hr => ?_
  exact ⟨lhs, cond, rhs, u, res, hx, hi, hu, hr, rfl⟩

end Start

theorem fill_meets {b : BlockId} {v : ValueId} {ty : Scalar} {res : Result}
    (hu : s.function.Usable dom b v ty) :
    Meets (fill res v) s fun res' t => t = s ∧ ty = res.type ∧
      res' = { res with incoming := res.incoming ++ [(s.block, v)] } := by
  simp only [fill, meets_bind]
  refine (expectType_meets hu).mono fun _ t h => ?_
  obtain ⟨ht, he⟩ := h
  subst ht
  exact ⟨rfl, he, rfl⟩

theorem branchTarget_meets (hv : s.Valid cx dom calls) :
    Meets (branchTarget opcode depth) s fun x t =>
      depth = s.regions.length ∧ x = .body ∧ t = s ∨
      ∃ b regions, x = .block b ∧ s.Exits depth b regions ∧ t = { s with regions := regions } := by
  simp only [branchTarget, meets_bind, meets_get, meets_ite]
  refine ⟨fun hd => .inl ⟨hd, rfl, rfl⟩, fun _ => ?_⟩
  split
  case h_1 => trivial
  case h_2 r hr =>
    split
    case h_1 header hk => exact .inr ⟨header, s.regions, rfl, .restart hr hk, rfl⟩
    case h_2 hk =>
      have hexit {after} (hh : s.Hands r.result after) := State.Exits.leave hr hk hh
      cases hres : r.result
      case none =>
        have hh : s.Hands r.result none := by rw [hres]; exact .nothing
        exact .inr ⟨_, _, rfl, hexit hh, rfl⟩
      case some res =>
        simp only [meets_bind, meets_map]
        refine (peekValue_meets hv.stack).mono fun v t h => ?_
        obtain ⟨ht, hs, ty, hu⟩ := h
        subst ht
        refine (fill_meets hu).mono fun res' u h => ?_
        obtain ⟨hu', he, hres'⟩ := h
        subst hu' he hres'
        exact .inr ⟨_, _, rfl, hexit (hres ▸ .value hs hu.hasType), rfl⟩

theorem State.Valid.target_continuation (hv : s.Valid cx dom calls) (hr : r ∈ s.regions) :
    s.function.Target dom s.block r.continuation where
  created := (hv.isOpen_continuation hr).created
  noPhi := Function.noPhi_of_insts_eq_nil (hv.regions r hr).empty
  ends _ := .inr ⟨hv.isOpen_continuation hr, hv.continuation_ne_block hr⟩
  scope := Set.sdiff_singleton_subset_iff.mp (hv.within r hr).scope

namespace State.Exits

theorem map_frame (he : s.Exits depth target rs) :
    rs.map Region.frame = s.regions.map Region.frame := by
  cases he
  case restart => rfl
  case leave r after hr hk hh =>
    refine List.ext_getElem? fun n => ?_
    rw [List.map_set, Region.exit_frame hh, List.getElem?_set]
    split
    case isTrue hn =>
      have ⟨hlt, hr⟩ := List.getElem?_eq_some_iff.mp hr
      simp [← hn, hr, hlt]
    case isFalse => rfl

variable (he : s.Exits depth target rs) (hv : s.Valid cx dom calls)
variable (hl : s.isDead = false)
include he hv hl

theorem isTarget : s.function.Target dom s.block target := by
  cases he
  case restart r hr hk =>
    have hr := List.mem_of_getElem? hr
    have hw := hv.within r hr
    have ⟨hc, hp, hd, hlive⟩ := (hv.regions r hr).header hk
    exact ⟨hc, hp, fun _ => .inl (hlive (hw.live hl)), hd.trans (Set.insert_subset_insert hw.scope)⟩
  case leave r after hr hk hh => exact hv.target_continuation (List.mem_of_getElem? hr)

theorem isSealed : s.function.Sealed dom s.block (.jump target) []
    (s.function.emit s.block "" none (.jump target)) dom :=
  .close hv.draft hv.scope hv.isOpen rfl (by simp [Op.successors])
    (by simpa [Op.successors] using isTarget he hv hl) .jump

theorem sealed_fork {lhs rhs : ValueId} {ty : Scalar} (cond : Comparison)
    (hlhs : s.function.Usable dom s.block lhs ty) (hrhs : s.function.Usable dom s.block rhs ty) :
    s.function.Sealed dom s.block (.branch lhs cond rhs target s.function.freshBlock)
      [s.function.freshBlock]
      (s.grow.emit "" none (.branch lhs cond rhs target s.function.freshBlock)).function
      (dom.extend s.function.freshBlock (dom s.block)) := by
  have ht := isTarget he hv hl
  exact hv.behind subset_rfl (fun _ => hv.scope.root hv.isOpen.created) rfl
    (by simpa [Op.successors] using Function.ne_freshBlock ht.created)
    (by simp [Op.successors, ht]) (.branch hlhs hrhs)

-- No other region is left.
theorem valid {g : Function} {dom' : Scope} {fresh : List BlockId}
    (hs : s.function.Sealed dom s.block op fresh g dom') (hm : target ∈ op.successors)
    (hsub : ∀ b ∈ op.successors, b = target ∨ b ∈ fresh) : ∀ r ∈ rs, r.Valid g dom' := by
  have hpass {r} (hr : r ∈ s.regions) (hn : r.continuation ≠ target) : r.Valid g dom' := by
    have hc := (hv.isOpen_continuation hr).created
    refine (hv.regions r hr).pass hs hc (hv.continuation_ne_block hr) fun hb => ?_
    rcases hsub _ hb with hb | hb
    · exact hn hb
    · exact Nat.not_lt_of_le (hs.created _ hb) hc
  cases he
  case restart r hr hk =>
    exact fun o ho => hpass ho (hv.headers r (List.mem_of_getElem? hr) _ hk o ho)
  case leave r after hr hk hh =>
    have ⟨hlt, he⟩ := List.getElem?_eq_some_iff.mp hr
    have hr := List.mem_of_getElem? hr
    intro o ho
    have ⟨n, hn, ho⟩ := List.getElem_of_mem ho
    rw [List.getElem_set] at ho
    split at ho
    case isTrue =>
      subst ho
      exact hv.region_exit hl hr hs hm hh
    case isFalse hne =>
      subst ho
      refine hpass (List.getElem_mem _) fun hc => hne ?_
      refine (List.getElem?_inj (by simpa) (List.nodup_cons.mp hv.nodup).2).mp ?_
      have hn : n < s.regions.length := by simpa using hn
      simp [he, hc, hlt, hn]

end State.Exits

theorem State.floor_congr (h : t.regions.map Region.frame = s.regions.map Region.frame) :
    t.floor = s.floor := by
  unfold floor
  cases ht : t.regions <;> cases hs : s.regions <;> simp [ht, hs] at h ⊢
  exact Region.height_congr h.1

theorem State.Valid.sealed_die {u : State} (hv : s.Valid cx dom calls)
    (hs : s.function.Sealed dom s.block op [] u.function dom) :
    s.function.Sealed dom s.block op [u.function.freshBlock] u.die.function
      (dom.extend u.function.freshBlock (dom s.block)) := by
  have hc := hv.isOpen.created
  exact hs.addBlock (fun x hx => Nat.lt_of_lt_of_le (hv.scope.created hc hx) hs.evolves.size)
    fun e he => hv.scope.root hc (hs.evolves.entry ▸ he)

-- The block is closed and only dead code follows.
theorem State.Valid.die {u : State} (hv : s.Valid cx dom calls)
    (hs : s.function.Sealed dom s.block op [] u.function dom)
    (hop : ∀ b ∈ op.successors, b.index < s.function.blocks.size)
    (hr : u.regions.map Region.frame = s.regions.map Region.frame)
    (hrv : ∀ {g dom'}, s.function.Sealed dom s.block op [u.function.freshBlock] g dom' →
      ∀ r ∈ u.regions, r.Valid g dom')
    (hk : u.stack ⊆ s.stack) (hf : s.floor ≤ u.stack.length)
    (hb : ∀ h ≤ s.floor, u.below h = s.below h) : ∃ dom', u.die.Valid cx dom' calls := by
  have hs' := hv.sealed_die hs
  have hfl := floor_congr hr
  have hfresh : s.function.blocks.size ≤ u.function.freshBlock.index := hs.evolves.size
  refine ⟨_, hv.leave hs' ?scope ?live (by simp [State.die]) hr (hrv hs') ?stack ?floor ?below⟩
  case scope =>
    rw [State.die, Scope.extend_self]
    exact Set.subset_insert ..
  case live =>
    simp only [State.die, Bool.true_eq_false, false_iff]
    intro hreach
    rcases hs'.reaches_iff.mp hreach with hreach | ⟨_, hm⟩
    · exact Nat.not_lt_of_le hfresh (hreach.created hv.draft.wf hv.draft.linked)
    · exact Nat.not_lt_of_le hfresh (hop _ hm)
  case stack => exact fun o ho => hk (List.mem_of_mem_drop ho)
  case floor =>
    simp only [State.die, hfl]
    rw [length_below hf]
  case below =>
    intro h hh
    simp only [State.die, hfl]
    exact (below_below hh hf).trans (hb h hh)

namespace State.Yields

variable (hy : s.Yields cx op)
include hy

theorem isTerminator : op.isTerminator = true := by
  cases hy <;> rfl

theorem successors : op.successors = [] := by
  cases hy <;> rfl

theorem fits {g : Function} {dom' : Scope} {b : BlockId} (hv : s.Valid cx dom calls)
    (he : s.function.Evolves dom g dom') (hd : dom s.block ⊆ dom' b) : g.Fits dom' b none op := by
  have hr := he.result.trans hv.result
  cases hy
  case nothing hn => exact .inl (hr.trans hn)
  case value hn hs ht => exact .ret (hr.trans hn) (he.keeps.usable hd (hv.usable_head hs ht))

theorem isSealed (hv : s.Valid cx dom calls) :
    s.function.Sealed dom s.block op [] (s.function.emit s.block "" none op) dom :=
  hv.sealed_close (isTerminator hy) (successors hy) (fits hy hv .refl subset_rfl)

theorem sealed_fork {lhs rhs : ValueId} {ty : Scalar} (cond : Comparison) (hv : s.Valid cx dom calls)
    (hl : s.function.Usable dom s.block lhs ty) (hr : s.function.Usable dom s.block rhs ty) :
    let branch : Op := .branch lhs cond rhs s.function.freshBlock s.grow.function.freshBlock
    ∃ dom', s.function.Sealed dom s.block branch [s.grow.function.freshBlock]
        ((s.fork branch).emit "" none op).function dom' ∧
      dom' s.grow.function.freshBlock = insert s.grow.function.freshBlock (dom s.block) := by
  intro branch
  have hne := s.freshBlock_ne
  have hf : s.function.Fits dom s.block none branch := .branch hl hr
  obtain ⟨dom', hs, hi, hx⟩ := hv.fork rfl (by simp [branch, Op.successors, hne])
    (by simp [branch, Op.successors]) hf
  have hsub : dom s.block ⊆ dom' s.function.freshBlock := hi ▸ Set.subset_insert ..
  exact ⟨dom', hs.close_fresh hv.isOpen.created (by simpa using hne) (isTerminator hy)
    (successors hy) (fits hy hv hs.evolves hsub), hx⟩

end State.Yields

theorem State.Leaves.valid (hv : s.Valid cx dom calls) (hd : s.isDead = false)
    (h : s.Leaves cx depth t) : ∃ dom', t.Valid cx dom' calls := by
  cases h
  case returns u op _ hr =>
    have hn := hr.yields.successors
    have hs := hr.yields.isSealed hv
    have hrv {g dom' fresh} (hs : s.function.Sealed dom s.block op fresh g dom') :
        ∀ r ∈ s.regions, r.Valid g dom' := fun r hm =>
      (hv.regions r hm).pass hs (hv.isOpen_continuation hm).created
        (hv.continuation_ne_block hm) (by simp [hn])
    rcases hr.popped with rfl | ⟨o, rest, hk, hf, rfl⟩
    · exact hv.die hs (by simp [hn]) rfl hrv (List.Subset.refl _) hv.floor_le fun _ _ => rfl
    · refine hv.die hs (by simp [hn]) rfl hrv (fun a ha => ?_) hf (s.advances_tail hk hf).below
      simp [hk, show a ∈ rest from ha]
  case exits b regions he =>
    have ht := he.isTarget hv hd
    exact hv.die (he.isSealed hv hd) (by simpa [Op.successors] using ht.created) he.map_frame
      (fun hs => he.valid hv hd hs (by simp [Op.successors]) (by simp [Op.successors]))
      (List.Subset.refl _) hv.floor_le fun _ _ => rfl

theorem emitReturn_meets (hv : s.Valid cx dom calls) (hl : s.isDead = false) :
    Meets (emitReturn cx.result opcode) s fun _ t =>
      ∃ u op, s.Returns cx u op ∧ t = u.emit "" none op := by
  cases hr : cx.result
  case none =>
    simp only [emitReturn, meets_perform hv.draft.wf hv.isOpen]
    exact ⟨s, .exit, ⟨.nothing hr, .inl rfl⟩, rfl⟩
  case some ty =>
    simp only [emitReturn, meets_bind]
    refine (popTyped_live_meets hv hl).mono fun v t h => ?_
    obtain ⟨rest, hs, hf, ht, hu⟩ := h
    subst ht
    refine (meets_perform (s := { s with stack := rest }) hv.draft.wf hv.isOpen).mpr ?_
    have hy : s.Yields cx (.ret v) := .value hr (by simp [hs]) hu.hasType
    exact ⟨_, .ret v, ⟨hy, .inr ⟨_, rest, hs, hf, rfl⟩⟩, rfl⟩

theorem branch_meets (hv : s.Valid cx dom calls) :
    Meets (branch cx opcode depth) s fun _ t =>
      s.isDead = true ∧ t = s ∨ s.isDead = false ∧ s.Leaves cx depth t := by
  simp only [branch, meets_bind, meets_get, meets_ite]
  refine ⟨fun hd => .inl ⟨hd, rfl⟩, fun hd => ?_⟩
  rw [Bool.not_eq_true] at hd
  refine (branchTarget_meets hv).mono fun x t h => ?_
  rcases h with ⟨hdepth, rfl, rfl⟩ | ⟨b, regions, rfl, he, rfl⟩
  · refine (emitReturn_meets hv hd).bind fun _ t h => ?_
    obtain ⟨u, op, hr, ht⟩ := h
    subst ht
    exact enterDeadBlock_meets.mpr (.inr ⟨hd, .returns hdepth hr⟩)
  · have hw : ({ s with regions := regions } : State).function.WellFormed := hv.draft.wf
    refine meets_bind.mpr <| (meets_perform hw hv.isOpen).mpr ?_
    exact enterDeadBlock_meets.mpr (.inr ⟨hd, .exits he⟩)

theorem return_meets (hv : s.Valid cx dom calls) :
    Meets (return_ cx opcode) s fun _ t =>
      s.isDead = true ∧ t = s ∨ s.isDead = false ∧ s.Leaves cx s.regions.length t := by
  simp only [return_, meets_bind, meets_get, meets_ite]
  refine ⟨fun hd => .inl ⟨hd, rfl⟩, fun hd => ?_⟩
  rw [Bool.not_eq_true] at hd
  refine (emitReturn_meets hv hd).mono fun _ t h => ?_
  obtain ⟨u, op, hr, ht⟩ := h
  subst ht
  exact enterDeadBlock_meets.mpr (.inr ⟨hd, .returns rfl hr⟩)

theorem State.Forks.valid {lhs rhs : ValueId} {cond : Comparison} {ty : Scalar}
    (hv : s.Valid cx dom calls) (hd : s.isDead = false) (hl : s.function.Usable dom s.block lhs ty)
    (hr : s.function.Usable dom s.block rhs ty) (h : s.Forks cx lhs cond rhs depth t) :
    ∃ dom', t.Valid cx dom' calls := by
  have hlive := hv.live_iff.mp hd
  cases h
  case exits b regions he =>
    have hs := he.sealed_fork hv hd cond hl hr
    refine ⟨_, hv.leave hs ?scope ?live (fun _ => hd) he.map_frame ?valid (List.Subset.refl _)
      hv.floor_le fun _ _ => rfl⟩
    case scope =>
      rw [Scope.extend_self]
      exact Set.subset_insert ..
    case live =>
      exact iff_of_true hd (hs.reaches_iff.mpr (.inr ⟨hlive, by simp [Op.successors]⟩))
    case valid =>
      exact he.valid hv hd hs (by simp [Op.successors]) (by simp [Op.successors])
  case returns op hdepth hy =>
    obtain ⟨dom', hs, hx⟩ := hy.sealed_fork cond hv hl hr
    refine ⟨_, hv.leave hs (hx ▸ Set.subset_insert ..) ?live (fun _ => hd) rfl (fun r hm => ?valid)
      (List.Subset.refl _) hv.floor_le fun _ _ => rfl⟩
    case live =>
      exact iff_of_true hd (hs.reaches_iff.mpr (.inr ⟨hlive, by simp [Op.successors]⟩))
    case valid =>
      have hco := (hv.isOpen_continuation hm).created
      refine (hv.regions r hm).pass hs hco (hv.continuation_ne_block hm) ?_
      have hco' : r.continuation.index < s.grow.function.blocks.size :=
        (State.open_grow (hv.isOpen_continuation hm)).created
      simp [Op.successors, Function.ne_freshBlock hco, Function.ne_freshBlock hco']

theorem emitReturnKeep_meets {b : BlockId} (hw : s.function.WellFormed)
    (ho : s.function.Open s.block) (hk : ∀ o ∈ s.stack, o.Usable s.function dom b) :
    Meets (emitReturnKeep cx.result opcode) s fun _ t =>
      ∃ op, s.Yields cx op ∧ t = s.emit "" none op := by
  cases hr : cx.result
  case none =>
    simp only [emitReturnKeep, meets_perform hw ho]
    exact ⟨.exit, .nothing hr, rfl⟩
  case some ty =>
    simp only [emitReturnKeep, meets_bind]
    refine (peekValue_meets hk).mono fun v t h => ?_
    obtain ⟨ht, hs, ty', hu⟩ := h
    subst ht
    refine (expectType_meets hu).mono fun _ t h => ?_
    obtain ⟨ht, he⟩ := h
    subst ht he
    rw [meets_perform hw ho]
    exact ⟨.ret v, .value hr hs hu.hasType, rfl⟩

-- What a grown function yields, the function could yield before.
theorem State.Yields.of_grows (hv : s.Valid cx dom calls) (hg : s.function.Grows t.function)
    (hk : t.stack = s.stack) (hy : t.Yields cx op) : s.Yields cx op := by
  cases hy
  case nothing hr => exact .nothing hr
  case value hr hs ht =>
    rw [hk] at hs
    have ⟨_, hu⟩ := hv.stack _ (List.mem_of_mem_head? hs)
    exact .value hr hs (ht.unique (hg.keeps.hasType hu.hasType) ▸ hu.hasType)

theorem branchIf_meets (hv : s.Valid cx dom calls) :
    Meets (branchIf cx opcode depth) s fun _ t => ∃ lhs cond rhs u,
      popCondition opcode s = .ok (lhs, cond, rhs) u ∧ Inside cx dom calls s u ∧
      (∃ ty, u.function.Usable dom u.block lhs ty ∧ u.function.Usable dom u.block rhs ty) ∧
      (u.isDead = true ∧ t = u ∨ u.isDead = false ∧ u.Forks cx lhs cond rhs depth t) := by
  simp only [branchIf, meets_bind]
  refine (popCondition_meets hv).eq_ok.mono fun d u h => ?_
  obtain ⟨lhs, cond, rhs⟩ := d
  obtain ⟨hx, hi, hu⟩ := h
  have hex {t} (h : u.isDead = true ∧ t = u ∨ u.isDead = false ∧ u.Forks cx lhs cond rhs depth t) :
      ∃ lhs cond rhs u, popCondition opcode s = .ok (lhs, cond, rhs) u ∧ Inside cx dom calls s u ∧
        (∃ ty, u.function.Usable dom u.block lhs ty ∧ u.function.Usable dom u.block rhs ty) ∧
        (u.isDead = true ∧ t = u ∨ u.isDead = false ∧ u.Forks cx lhs cond rhs depth t) :=
    ⟨lhs, cond, rhs, u, hx, hi, hu, h⟩
  have hv := hi.valid
  simp only [meets_get, meets_ite, meets_bind]
  refine ⟨fun hd => hex (.inl ⟨hd, rfl⟩), fun hd => ?_⟩
  rw [Bool.not_eq_true] at hd
  refine (branchTarget_meets hv).mono fun x t h => ?_
  rcases h with ⟨hdepth, rfl, rfl⟩ | ⟨b, regions, rfl, he, rfl⟩
  case inl =>
    have hne := t.freshBlock_ne
    obtain ⟨ty, hl, hr⟩ := hu
    have hf : t.function.Fits dom t.block none
        (.branch lhs cond rhs t.function.freshBlock t.grow.function.freshBlock) := .branch hl hr
    obtain ⟨dom', hs, hi, _⟩ := hv.fork rfl (by simp [Op.successors, hne]) (by simp [Op.successors]) hf
    have hw := State.wellFormed_grow (State.wellFormed_grow hv.draft.wf)
    have ho := State.open_grow (State.open_grow hv.isOpen)
    simp only [meets_bind, meets_newBlock, meets_perform hw ho, meets_setBlock]
    have hk : ∀ o ∈ t.stack, o.Usable _ dom' t.function.freshBlock := fun o ho =>
      (hv.stack o ho).mono hs.grows.keeps (hi ▸ Set.subset_insert ..)
    refine (emitReturnKeep_meets hs.draft.wf (hs.open_iff.mpr (.inr (by simp [State.fork]))) hk).mono ?_
    rintro _ _ ⟨op, hy, rfl⟩
    exact hex (.inr ⟨hd, .returns hdepth (hy.of_grows hv hs.grows rfl)⟩)
  case inr =>
    have hw := State.wellFormed_grow (s := { u with regions := regions }) hv.draft.wf
    have ho := State.open_grow (s := { u with regions := regions }) hv.isOpen
    simp only [meets_bind, meets_newBlock, meets_perform hw ho, meets_setBlock]
    exact hex (.inr ⟨hd, .exits he⟩)

end StackCompiler.Lowering.Direct
