import StackCompiler.Proofs.DeadCode.Parallel

-- The instructions that open, leave and close regions, in two lowerings whose live code is the same.

namespace StackCompiler.Lowering.Direct

open Bytecode (Instruction)
open Ssa (BlockId Function Op Renaming Scope ValueId)

variable {cx cx' : Context} {dom dom' : Scope} {calls calls' : List Nat} {s s' t t' u : State}
variable {ρ σ : Renaming} {r r' : Region} {op op' : Op} {b c next next' : BlockId} {depth : Nat}
variable {v w : ValueId} {outer outer' rs rs' : List Region} {before before' after after' : Option Result}
variable {kind kind' : RegionKind} {result : Option Result} {name : String} {type : Option Scalar}

theorem Region.Renamed.exit (h : r.Renamed ρ r') (hb : ρ.block b c)
    (ha : Option.Rel (Result.Renamed ρ) after after') : (r.exit b after).Renamed ρ (r'.exit c after') := by
  have hk := h.kind
  unfold Region.exit Region.leave
  cases hr : r.kind <;> cases hr' : r'.kind <;> rw [hr, hr'] at hk <;> cases hk
  case if_.if_ hbreaks =>
    exact { h with kind := .if_ (List.rel_append hbreaks (.cons hb .nil)), result := ha }
  all_goals exact { h with result := ha }

theorem forall₂_set {α β : Type} {R : α → β → Prop} {l : List α} {l' : List β} {x : α} {y : β}
    (h : List.Forall₂ R l l') (hxy : R x y) (n : Nat) : List.Forall₂ R (l.set n x) (l'.set n y) := by
  induction h generalizing n
  case nil => exact .nil
  case cons ha hl hi =>
    cases n
    case zero => exact .cons hxy hl
    case succ n => exact .cons ha (hi n)

namespace State

namespace Parallel

variable (h : s.Parallel ρ t)
include h

theorem hands (hb : Option.Rel (Result.Renamed ρ) before before') (hh : s.Hands before after)
    (hh' : t.Hands before' after') : Option.Rel (Result.Renamed ρ) after after' := by
  have hk := h.stack
  cases hh
  case nothing =>
    cases hb
    cases hh'
    exact .none
  case value v res hs _ =>
    cases hb
    case some hres =>
      cases hh'
      case value w res' ht _ =>
        generalize s.stack = l at hk hs
        generalize t.stack = l' at hk ht
        cases hk
        case nil => cases hs
        case cons ho _ =>
          cases hs
          cases ht
          cases ho
          case value hv =>
            exact .some ⟨hres.type, List.rel_append hres.incoming (.cons ⟨h.block, hv⟩ .nil)⟩

-- Both go to the same place, and it is empty if nothing led there before.
theorem exits (hv : s.Valid cx dom calls) (hv' : t.Valid cx' dom' calls') (hd : s.isDead = false)
    (he : s.Exits depth b rs) (he' : t.Exits depth c rs') :
    ρ.block b c ∧ List.Forall₂ (Region.Renamed ρ) rs rs' ∧
      (s.function.Reaches b ∨ s.function.insts b = [] ∧ t.function.insts c = []) := by
  cases he
  case restart r hr hk =>
    obtain ⟨r', hr', hrr⟩ := Ssa.rel_of_some (forall₂_getElem? h.regions depth) hr
    have hkind := hrr.kind
    cases he'
    case restart hr'' hk' =>
      cases hr'.symm.trans hr''
      rw [hk, hk'] at hkind
      cases hkind
      case loop hh =>
        have hm := List.mem_of_getElem? hr
        have hreach := ((hv.regions r hm).header hk).2.2.2 ((hv.within r hm).live hd)
        exact ⟨hh, h.regions, .inl hreach⟩
    case leave hr'' hk' _ =>
      cases hr'.symm.trans hr''
      rw [hk] at hkind
      generalize hkr : r'.kind = k at hkind
      cases hkind
      case loop => exact absurd hkr (hk' _)
  case leave r after hr hk hh =>
    obtain ⟨r', hr', hrr⟩ := Ssa.rel_of_some (forall₂_getElem? h.regions depth) hr
    have hkind := hrr.kind
    cases he'
    case restart hr'' hk' =>
      cases hr'.symm.trans hr''
      rw [hk'] at hkind
      generalize hkr : r.kind = k at hkind
      cases hkind
      case loop => exact absurd hkr (hk _)
    case leave after' hr'' hk' hh' =>
      cases hr'.symm.trans hr''
      refine ⟨hrr.continuation, forall₂_set h.regions (hrr.exit h.block ?_) depth, .inr ⟨?_, ?_⟩⟩
      · exact h.hands hrr.result hh hh'
      · exact (hv.regions r (List.mem_of_getElem? hr)).empty
      · exact (hv'.regions r' (List.mem_of_getElem? hr')).empty

section Close

variable (hs : s.Active) (ht : t.Active)
include hs ht

-- Both end their blocks in the same way and go on where code is the same.
theorem close (ho : op.Renamed ρ op') (hbc : ρ.block b c)
    (hop : ∀ {b c}, ρ.block b c → b ∈ op.successors →
      s.function.Reaches b ∨ s.function.insts b = [] ∧ t.function.insts c = []) :
    ({ s.emit "" none op with block := b } : State).Parallel
      (ρ.addValue s.function.freshValue t.function.freshValue) { t.emit "" none op' with block := c } where
  function := h.function.emit hs.wf hs.isOpen ht.isOpen h.block hs.reaches ho hop
  isEnded := h.isEnded
  block := hbc
  stack := h.stack.imp fun _ _ => .mono (ρ.le_addValue ..)
  regions := h.regions.imp fun _ _ => .mono (ρ.le_addValue ..)

theorem grow_twice : ∃ σ, ρ ≤ σ ∧ s.grow.grow.Parallel σ t.grow.grow ∧
    σ.block s.function.freshBlock t.function.freshBlock ∧
    σ.block s.grow.function.freshBlock t.grow.function.freshBlock :=
  ⟨_, (ρ.le_addBlock ..).trans (Renaming.le_addBlock ..), (h.grow hs ht).grow hs.grow ht.grow,
    .inl (ρ.addBlock_self ..), Renaming.addBlock_self ..⟩

end Close

end Parallel

theorem grow_insts : s.grow.function.insts b = s.function.insts b :=
  Function.addBlock_insts

-- Both fork into fresh blocks.
theorem Parallel.fork (h : s.grow.grow.Parallel σ t.grow.grow) (hs : s.Active) (ht : t.Active)
    (hfirst : σ.block s.function.freshBlock t.function.freshBlock)
    (hsecond : σ.block s.grow.function.freshBlock t.grow.function.freshBlock)
    (ho : op.Renamed σ op')
    (hop : ∀ b ∈ op.successors, b = s.function.freshBlock ∨ b = s.grow.function.freshBlock) :
    ∃ σ', σ ≤ σ' ∧ (s.fork op).Parallel σ' (t.fork op') := by
  refine ⟨_, σ.le_addValue .., h.close hs.grow.grow ht.grow.grow ho hfirst fun hbc hb => .inr ?_⟩
  rcases hop _ hb with rfl | rfl
  · cases (h.function.block_eq_iff hfirst hbc).mp rfl
    simp only [grow_insts, Function.insts_freshBlock, and_self]
  · cases (h.function.block_eq_iff hsecond hbc).mp rfl
    rw [grow_insts (s := s.grow), grow_insts (s := t.grow)]
    simp only [Function.insts_freshBlock, and_self]

theorem Parallel.enter (h : s.Parallel ρ t) (hs : s.Active) (ht : t.Active)
    (hd : t.isDead = s.isDead)
    (hk : ∀ {σ}, ρ ≤ σ → σ.block s.function.freshBlock t.function.freshBlock →
      σ.block s.grow.function.freshBlock t.grow.function.freshBlock →
      kind.Renamed σ kind' ∧ op.Renamed σ op')
    (hop : ∀ b ∈ op.successors, b = s.function.freshBlock ∨ b = s.grow.function.freshBlock)
    (hres : ∀ res, result = some res → res.incoming = []) :
    ∃ σ, ρ ≤ σ ∧ (s.enter kind op result).Parallel σ (t.enter kind' op' result) := by
  obtain ⟨σ, hle, hg, hfirst, hsecond⟩ := h.grow_twice hs ht
  obtain ⟨σ', hle', hf⟩ := hg.fork hs ht hfirst hsecond (hk hle hfirst hsecond).2 hop
  refine ⟨σ', hle.trans hle', hf.function, hf.isEnded, hf.block, hf.stack, .cons ?_ hf.regions⟩
  refine ⟨(hk hle hfirst hsecond).1.mono hle', hle'.2 _ _ hsecond, ?_, h.stack.length_eq.symm, by rw [hd]⟩
  cases result
  case none => exact .none
  case some res => exact .some ⟨rfl, by simp [hres res rfl]⟩

theorem Parallel.yields (h : s.Parallel ρ t) (hc : cx'.result = cx.result) (hy : s.Yields cx op)
    (hy' : t.Yields cx' op') : op.Renamed ρ op' := by
  have hk := h.stack
  cases hy
  case nothing hr =>
    cases hy'
    case nothing => exact .exit
    case value hr' _ _ => simp [hc, hr] at hr'
  case value hr hs _ =>
    cases hy'
    case nothing hr' => simp [hc, hr] at hr'
    case value hs' _ =>
      generalize s.stack = l at hk hs
      generalize t.stack = l' at hk hs'
      cases hk
      case nil => cases hs
      case cons ho _ =>
        cases hs
        cases hs'
        cases ho
        case value hv => exact .ret hv

theorem Returns.exists_pop_below (hr : s.Returns cx u op) :
    ∃ rest, u = s.pop rest ∧ (s.pop rest).below s.floor = s.below s.floor := by
  rcases hr.popped with rfl | ⟨o, rest, hk, hf, rfl⟩
  · exact ⟨_, rfl, rfl⟩
  · exact ⟨rest, rfl, (s.advances_tail hk hf).below _ (Nat.le_refl _)⟩

-- What follows a branch is dead in both.
theorem Alike.die (hf : s.function.Matches ρ t.function) (he : s.function.entry.isSome)
    (he' : t.function.entry.isSome) (hend : t.isEnded = s.isEnded)
    (hk : List.Forall₂ (Operand.Renamed ρ) (s.below s.floor) (t.below t.floor))
    (hr : List.Forall₂ (Region.Renamed ρ) s.regions t.regions) : s.die.Alike ρ t.die := by
  refine .dead rfl rfl (deadDepth_congr hr) (.of_stack ?_ hend hk hr)
  exact (hf.spare_left (.addBlock he)).spare_right (.addBlock he')

theorem floor_renamed (h : List.Forall₂ (Region.Renamed ρ) s.regions t.regions) :
    t.floor = s.floor := by
  unfold floor
  generalize s.regions = l at h ⊢
  generalize t.regions = l' at h ⊢
  cases h
  case nil => rfl
  case cons hr _ => exact hr.height

theorem Exits.depth_lt (he : s.Exits depth b rs) : depth < s.regions.length := by
  cases he
  case restart hr _ => exact (List.getElem?_eq_some_iff.mp hr).1
  case leave hr _ _ => exact (List.getElem?_eq_some_iff.mp hr).1

theorem Valid.active_fork {lhs rhs : ValueId} {cond : Comparison} {ty : Scalar}
    (hv : s.Valid cx dom calls) (hd : s.isDead = false) (hl : s.function.Usable dom s.block lhs ty)
    (hr : s.function.Usable dom s.block rhs ty) :
    (s.fork (.branch lhs cond rhs s.function.freshBlock s.grow.function.freshBlock)).Active := by
  have hf : s.function.Fits dom s.block none
      (.branch lhs cond rhs s.function.freshBlock s.grow.function.freshBlock) := .branch hl hr
  obtain ⟨_, hs, _⟩ := hv.fork rfl (by simp [Op.successors, s.freshBlock_ne])
    (by simp [Op.successors]) hf
  refine ⟨⟨hs.draft.wf, hs.open_iff.mpr (.inr (.head _))⟩, hs.reaches_iff.mpr (.inr ⟨?_, ?_⟩)⟩
  · exact hv.live_iff.mp hd
  · exact .head _

section Leave

variable (h : s.Parallel ρ t) (hv : s.Valid cx dom calls) (hv' : t.Valid cx' dom' calls')
variable (hd : s.isDead = false) (hd' : t.isDead = false) (hc : cx'.result = cx.result)
include h hv hv' hd hd' hc

theorem Parallel.leaves (hl : s.Leaves cx depth s') (hl' : t.Leaves cx' depth t') :
    ∃ σ, ρ ≤ σ ∧ s'.Alike σ t' := by
  have hs := hv.active hd
  have ht := hv'.active hd'
  have hle := ρ.le_addValue s.function.freshValue t.function.freshValue
  have hlen := h.regions.length_eq
  have hbelow : List.Forall₂ (Operand.Renamed ρ) (s.below s.floor) (t.below t.floor) := by
    rw [floor_renamed h.regions]
    exact forall₂_below h.stack _
  cases hl
  case returns u op hdepth hr =>
    cases hl'
    case returns u' op' _ hr' =>
      obtain ⟨rest, rfl, hu⟩ := hr.exists_pop_below
      obtain ⟨rest', rfl, hu'⟩ := hr'.exists_pop_below
      have ho := h.yields hc hr.yields hr'.yields
      refine ⟨_, hle, .die (h.function.emit hs.wf hs.isOpen ht.isOpen h.block hs.reaches ho
        fun _ hb => ?_) hs.reaches.entry_isSome ht.reaches.entry_isSome h.isEnded ?_
        (h.regions.imp fun _ _ => .mono hle)⟩
      · simp [hr.yields.successors] at hb
      · change List.Forall₂ _ ((s.pop rest).below s.floor) ((t.pop rest').below t.floor)
        rw [hu, hu']
        exact hbelow.imp fun _ _ => .mono hle
    case exits he' =>
      have hlt := he'.depth_lt
      omega
  case exits b rs he =>
    cases hl'
    case returns hdepth _ =>
      have hlt := he.depth_lt
      omega
    case exits c rs' he' =>
      obtain ⟨hbc, hrs, hempty⟩ := h.exits hv hv' hd he he'
      refine ⟨_, hle, .die (h.function.emit hs.wf hs.isOpen ht.isOpen h.block hs.reaches (.jump hbc)
        fun {b₁ c₁} hbc₁ hb => ?_) hs.reaches.entry_isSome ht.reaches.entry_isSome h.isEnded ?_
        (hrs.imp fun _ _ => .mono hle)⟩
      · cases List.mem_singleton.mp hb
        cases (h.function.block_eq_iff hbc hbc₁).mp rfl
        exact hempty
      · have hfl : State.floor { s with regions := rs } = s.floor := floor_congr he.map_frame
        have hfl' : State.floor { t with regions := rs' } = t.floor := floor_congr he'.map_frame
        change List.Forall₂ _ (s.below (State.floor { s with regions := rs }))
          (t.below (State.floor { t with regions := rs' }))
        rw [hfl, hfl']
        exact hbelow.imp fun _ _ => .mono hle

-- Both branch on the same condition.
theorem Parallel.forks {lhs lhs' rhs rhs' : ValueId} {cond : Comparison} {ty ty' : Scalar}
    (hlhs : ρ.value lhs lhs') (hrhs : ρ.value rhs rhs')
    (hu : s.function.Usable dom s.block lhs ty ∧ s.function.Usable dom s.block rhs ty)
    (hu' : t.function.Usable dom' t.block lhs' ty' ∧ t.function.Usable dom' t.block rhs' ty')
    (hf : s.Forks cx lhs cond rhs depth s') (hf' : t.Forks cx' lhs' cond rhs' depth t') :
    ∃ σ, ρ ≤ σ ∧ s'.Parallel σ t' := by
  have hs := hv.active hd
  have ht := hv'.active hd'
  have hlen := h.regions.length_eq
  cases hf
  case exits b rs he =>
    cases hf'
    case returns hdepth _ =>
      have hlt := he.depth_lt
      omega
    case exits c rs' he' =>
      obtain ⟨hbc, hrs, hempty⟩ := h.exits hv hv' hd he he'
      have hset : ({ s with regions := rs } : State).Parallel ρ { t with regions := rs' } :=
        ⟨h.function, h.isEnded, h.block, h.stack, hrs⟩
      have hs' : ({ s with regions := rs } : State).Active := ⟨⟨hs.wf, hs.isOpen⟩, hs.reaches⟩
      have ht' : ({ t with regions := rs' } : State).Active := ⟨⟨ht.wf, ht.isOpen⟩, ht.reaches⟩
      have hg := hset.grow hs' ht'
      have hfresh := ρ.addBlock_self s.function.freshBlock t.function.freshBlock
      refine ⟨_, (ρ.le_addBlock ..).trans (Renaming.le_addValue ..), hg.close hs'.grow ht'.grow
        (.branch cond hlhs hrhs (.inl hbc) hfresh) hfresh fun {b₁ c₁} hbc₁ hb => ?_⟩
      rw [grow_insts, grow_insts]
      rcases List.mem_pair.mp hb with rfl | rfl
      · cases (hg.function.block_eq_iff (.inl hbc) hbc₁).mp rfl
        exact hempty.imp_left (Function.addBlock_reaches_iff hs.reaches.entry_isSome).mpr
      · cases (hg.function.block_eq_iff hfresh hbc₁).mp rfl
        exact .inr ⟨Function.insts_freshBlock, Function.insts_freshBlock⟩
  case returns op hdepth hy =>
    cases hf'
    case exits he' =>
      have hlt := he'.depth_lt
      omega
    case returns op' _ hy' =>
      obtain ⟨σ, hle, hg, hfirst, hsecond⟩ := h.grow_twice hs ht
      obtain ⟨σ', hle', hfork⟩ := hg.fork hs ht hfirst hsecond
        (.branch cond (hle.1 _ _ hlhs) (hle.1 _ _ hrhs) hfirst hsecond) (by simp [Op.successors])
      have ho := (h.yields hc hy hy').mono (hle.trans hle')
      refine ⟨_, (hle.trans hle').trans (Renaming.le_addValue ..), hfork.close
        (hv.active_fork hd hu.1 hu.2) (hv'.active_fork hd' hu'.1 hu'.2) ho (hle'.2 _ _ hsecond)
        fun _ hb => ?_⟩
      simp [hy.successors] at hb

end Leave

-- Code can be added to the active block, which is live if its code is.
structure Placed (s : State) : Prop extends Ready s where
  live_iff : s.isDead = false ↔ s.function.Reaches s.block

theorem Valid.placed (hv : s.Valid cx dom calls) : s.Placed :=
  ⟨hv.ready, hv.live_iff⟩

theorem Placed.active (h : s.Placed) (hd : s.isDead = false) : s.Active :=
  ⟨h.toReady, h.live_iff.mp hd⟩

theorem Placed.grow (h : s.Placed) (he : s.function.entry.isSome) : s.grow.Placed :=
  ⟨h.toReady.grow, h.live_iff.trans (Function.addBlock_reaches_iff he).symm⟩

theorem Placed.spares_emit (h : s.Placed) (hd : s.isDead = true) :
    s.function.Spares (s.function.emit s.block name type op) :=
  .emit h.wf h.isOpen fun hr => by simp [h.live_iff.mpr hr] at hd

namespace Alike

section Ends

variable (h : s.Alike ρ t)
include h

theorem function : s.function.Matches ρ t.function := by
  cases h
  case live h => exact h.function
  case dead h => exact h.function

theorem isEnded : t.isEnded = s.isEnded := by
  cases h
  case live h => exact h.isEnded
  case dead h => exact h.isEnded

theorem regions (hs : s.deadDepth = 0) (ht : t.deadDepth = 0) :
    List.Forall₂ (Region.Renamed ρ) s.regions t.regions := by
  cases h
  case live h => exact h.regions
  case dead h => exact live_eq hs ▸ live_eq ht ▸ h.regions

theorem below (hs : s.deadDepth = 0) (ht : t.deadDepth = 0) (hr : s.regions = r :: outer)
    (hr' : t.regions = r' :: outer') :
    List.Forall₂ (Operand.Renamed ρ) (s.below r.height) (t.below r'.height) := by
  cases h
  case live h =>
    have hrr := h.regions
    rw [hr, hr'] at hrr
    cases hrr
    case cons hrr _ =>
      rw [hrr.height]
      exact forall₂_below h.stack _
  case dead h =>
    have hb := h.below
    simp only [base, live_eq hs, live_eq ht, hr, hr', List.head?_cons, Option.map_some,
      Option.getD_some] at hb
    exact hb

theorem grow (hs : s.function.entry.isSome) (ht : t.function.entry.isSome) :
    s.grow.Alike (ρ.addBlock s.function.freshBlock t.function.freshBlock) t.grow := by
  have hle := ρ.le_addBlock s.function.freshBlock t.function.freshBlock
  cases h
  case live hd hd' h =>
    exact .live hd hd' ⟨h.function.addBlock hs ht, h.isEnded, .inl h.block,
      h.stack.imp fun _ _ => .mono hle, h.regions.imp fun _ _ => .mono hle⟩
  case dead hd hd' hn h =>
    exact .dead hd hd' hn ⟨h.function.addBlock hs ht, h.isEnded, h.regions.imp fun _ _ => .mono hle,
      h.below.imp fun _ _ => .mono hle⟩

-- Both leave a region in the same way: live code for the same block with the same result, and dead
-- code for nowhere.
theorem ends (hs : s.Placed) (ht : t.Placed) (hnext : ρ.block next next')
    (hempty : s.function.insts next = [] ∧ t.function.insts next' = [])
    (hres : Option.Rel (Result.Renamed ρ) r.result r'.result) (he : s.Ends r next op after)
    (he' : t.Ends r' next' op' after') :
    ∃ σ, ρ ≤ σ ∧ Option.Rel (Result.Renamed σ) after after' ∧
      (s.function.emit s.block "" none op).Matches σ (t.function.emit t.block "" none op') := by
  cases h
  case live hd hd' h =>
    cases he
    case dead hdead => simp [hd] at hdead
    case live hh =>
      cases he'
      case dead hdead => simp [hd'] at hdead
      case live hh' =>
        have has := hs.active hd
        refine ⟨_, ρ.le_addValue .., ?_, h.function.emit has.wf has.isOpen ht.isOpen h.block has.reaches
          (.jump hnext) fun hbc hb => .inr ?_⟩
        · exact Ssa.rel_mono (fun _ _ => .mono (ρ.le_addValue ..)) (h.hands hres hh hh')
        · cases List.mem_singleton.mp hb
          cases (h.function.block_eq_iff hnext hbc).mp rfl
          exact hempty
  case dead hd hd' _ h =>
    cases he
    case live hlive _ => simp [hd] at hlive
    case dead =>
      cases he'
      case live hlive _ => simp [hd'] at hlive
      case dead =>
        exact ⟨ρ, le_rfl, hres, (h.function.spare_left (hs.spares_emit hd)).spare_right (ht.spares_emit hd')⟩

end Ends

end Alike

theorem Valid.idles_yield {ty : Scalar} (hv : s.Valid cx dom calls) (hd : s.isDead = true) :
    s.Idles (s.yield name ty op) where
  function := hv.placed.spares_emit hd
  isDead := hd
  isEnded := rfl
  live := rfl
  below := below_cons (Nat.le_trans hv.base_le_floor hv.floor_le)

theorem Alike.yield {ty : Scalar} (h : s.Alike ρ t) (hv : s.Valid cx dom calls)
    (hv' : t.Valid cx' dom' calls') (ho : op.Renamed ρ op') (hn : op.isTerminator = false) :
    ∃ σ, ρ ≤ σ ∧ (s.yield name ty op).Alike σ (t.yield name ty op') := by
  cases h
  case live hd hd' h =>
    exact ⟨_, ρ.le_addValue .., .live hd hd' (h.yield (hv.active hd) (hv'.active hd') ho hn)⟩
  case dead hd hd' hn h =>
    exact ⟨ρ, le_rfl, .dead hd hd' hn
      ((h.idle_left (hv.idles_yield hd)).idle_right (hv'.idles_yield hd'))⟩

-- Both get the same result of a region.
theorem Alike.receive (h : s.Alike ρ t) (hv : s.Valid cx dom calls) (hv' : t.Valid cx' dom' calls')
    (hr : Option.Rel (Result.Renamed ρ) after after') :
    ∃ σ, ρ ≤ σ ∧ (s.receive after).Alike σ (t.receive after') := by
  cases hr
  case none => exact ⟨ρ, le_rfl, h⟩
  case some res res' hr =>
    have hempty : res'.incoming.isEmpty = res.incoming.isEmpty := by
      rw [Bool.eq_iff_iff, List.isEmpty_iff_length_eq_zero, List.isEmpty_iff_length_eq_zero,
        hr.incoming.length_eq]
    simp only [State.receive, hempty, hr.type]
    split
    case isTrue => exact h.yield hv hv' (.const _) rfl
    case isFalse => exact h.journal.yield (hv.journal _) (hv'.journal _) (.phi hr.incoming) rfl

section End

variable (h : s.Alike ρ t) (hv : s.Valid cx dom calls) (hv' : t.Valid cx' dom' calls')
variable (hr : s.regions = r :: outer) (hr' : t.regions = r' :: outer')
variable (hn : s.deadDepth = 0) (hn' : t.deadDepth = 0)
include h hv hv' hr hr' hn hn'

theorem Alike.close (he : s.Ends r r.continuation op after)
    (he' : t.Ends r' r'.continuation op' after') :
    ∃ σ, ρ ≤ σ ∧ ((s.resume r outer op).receive after).Alike σ
      ((t.resume r' outer' op').receive after') := by
  have hregions := h.regions hn hn'
  rw [hr, hr'] at hregions
  cases hregions
  case cons hrr houter =>
    have hempty := (hv.regions r (by simp [hr])).empty
    have hempty' := (hv'.regions r' (by simp [hr'])).empty
    obtain ⟨σ, hle, hafter, hf⟩ :=
      h.ends hv.placed hv'.placed hrr.continuation ⟨hempty, hempty'⟩ hrr.result he he'
    have hp : (s.resume r outer op).Parallel σ (t.resume r' outer' op') :=
      ⟨hf, h.isEnded, hle.2 _ _ hrr.continuation,
        (h.below hn hn' hr hr').imp fun _ _ => .mono hle, houter.imp fun _ _ => .mono hle⟩
    have hw := Ends.valid_resume hv hr he
    have hw' := Ends.valid_resume hv' hr' he'
    obtain ⟨σ', hle', ha⟩ := (hp.alike hw hw').receive hw hw' hafter
    exact ⟨σ', hle.trans hle', ha⟩

theorem Alike.turn {breaks breaks' : List BlockId} {g g' : Function} (hk : r.kind = .if_ breaks)
    (hk' : r'.kind = .if_ breaks') (he : s.Ends r s.function.freshBlock op after)
    (he' : t.Ends r' t.function.freshBlock op' after')
    (hg : breaks.forM (Function.retarget · r.continuation s.function.freshBlock)
      (s.grow.emit "" none op).function = .ok () g)
    (hg' : breaks'.forM (Function.retarget · r'.continuation t.function.freshBlock)
      (t.grow.emit "" none op').function = .ok () g') :
    ∃ σ, ρ ≤ σ ∧ (s.turn r outer after g).Alike σ (t.turn r' outer' after' g') := by
  have hregions := h.regions hn hn'
  rw [hr, hr'] at hregions
  cases hregions
  case cons hrr houter =>
    have hle := ρ.le_addBlock s.function.freshBlock t.function.freshBlock
    have hfresh := ρ.addBlock_self s.function.freshBlock t.function.freshBlock
    have hgrow := h.grow hv.draft.entry hv'.draft.entry
    have hempty : s.grow.function.insts s.function.freshBlock = [] ∧
        t.grow.function.insts t.function.freshBlock = [] := by
      simp only [grow_insts, Function.insts_freshBlock, and_self]
    obtain ⟨σ, hle', hafter, hf⟩ := hgrow.ends (hv.placed.grow hv.draft.entry)
      (hv'.placed.grow hv'.draft.entry) hfresh hempty
      (Ssa.rel_mono (fun _ _ => .mono hle) hrr.result)
      (.congr (u := s) rfl rfl rfl (fun _ => rfl) he) (.congr (u := t) rfl rfl rfl (fun _ => rfl) he')
    have hseal := Ends.sealed_turn hv hr he
    have hseal' := Ends.sealed_turn hv' hr' he'
    obtain ⟨_, hg₁, hm⟩ := Ends.exists_moved hv hr he hk
    cases hg.symm.trans hg₁
    obtain ⟨_, hg₁, hm'⟩ := Ends.exists_moved hv' hr' he' hk'
    cases hg'.symm.trans hg₁
    have hle := hle.trans hle'
    have hbreaks := hrr.kind
    rw [hk, hk'] at hbreaks
    cases hbreaks
    case if_ hbreaks =>
      have hne : s.function.freshBlock ≠ s.block :=
        (Function.ne_freshBlock hv.isOpen.created).symm
      have hne' : t.function.freshBlock ≠ t.block :=
        (Function.ne_freshBlock hv'.isOpen.created).symm
      have hmatch := hf.moved hseal.draft.wf hseal'.draft.wf hm hm' (hbreaks.imp hle.2)
        (hle.2 _ _ hrr.continuation) (hle'.2 _ _ hfresh)
        ((hseal.insts hne (.inr (.head _))).trans Function.insts_freshBlock)
        ((hseal'.insts hne' (.inr (.head _))).trans Function.insts_freshBlock)
      have hp : (s.turn r outer after g).Parallel σ (t.turn r' outer' after' g') := by
        refine ⟨hmatch, h.isEnded, hle.2 _ _ hrr.continuation,
          (h.below hn hn' hr hr').imp fun _ _ => .mono hle,
          .cons ?_ (houter.imp fun _ _ => .mono hle)⟩
        exact ⟨.else_, hle'.2 _ _ hfresh, hafter, hrr.height, hrr.isLive⟩
      obtain ⟨_, hw⟩ := Ends.valid_turn hv hr hk he hg
      obtain ⟨_, hw'⟩ := Ends.valid_turn hv' hr' hk' he' hg'
      exact ⟨σ, hle, hp.alike hw hw'⟩

end End

-- The end of a region, or of the body.
theorem Alike.close_step (h : s.Alike ρ t) (hv : s.Valid cx dom calls) (hv' : t.Valid cx' dom' calls')
    (hn : s.deadDepth = 0) (hn' : t.deadDepth = 0) (hx : Direct.close s = .ok () s')
    (hx' : Direct.close t = .ok () t') : ∃ σ, ρ ≤ σ ∧ s'.Alike σ t' := by
  have hregions := h.regions hn hn'
  rcases (close_meets hv).of_ok hx with ⟨hr, rfl⟩ | ⟨r, outer, op, after, hr, _, he, rfl⟩ <;>
    rcases (close_meets hv').of_ok hx' with ⟨hr', rfl⟩ | ⟨r', outer', op', after', hr', _, he', rfl⟩
  · refine ⟨ρ, le_rfl, ?_⟩
    cases h
    case live hd hd' h =>
      exact .live hd hd' ⟨h.function, rfl, h.block, h.stack, h.regions⟩
    case dead hd hd' hdepth h => exact .dead hd hd' hdepth ⟨h.function, rfl, h.regions, h.below⟩
  · simp [hr, hr'] at hregions
  · simp [hr, hr'] at hregions
  · exact h.close hv hv' hr hr' hn hn' he he'

theorem Alike.else_step (h : s.Alike ρ t) (hv : s.Valid cx dom calls) (hv' : t.Valid cx' dom' calls')
    (hn : s.deadDepth = 0) (hn' : t.deadDepth = 0) (hx : startElse s = .ok () s')
    (hx' : startElse t = .ok () t') : ∃ σ, ρ ≤ σ ∧ s'.Alike σ t' := by
  obtain ⟨r, outer, breaks, op, after, g, hr, hk, he, hg, rfl⟩ := (startElse_meets hv).of_ok hx
  obtain ⟨r', outer', breaks', op', after', g', hr', hk', he', hg', rfl⟩ :=
    (startElse_meets hv').of_ok hx'
  exact h.turn hv hv' hr hr' hn hn' hk hk' he he' hg hg'

end State

end StackCompiler.Lowering.Direct
