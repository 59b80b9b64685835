import StackCompiler.Proofs.Lowering.Data
import Mathlib.Data.List.Nodup
import Mathlib.Order.BooleanAlgebra.Set

-- Leaving the active block: what closing it does to the open regions, and to the state in which the
-- lowering goes on.

namespace StackCompiler.Lowering.Direct

open Ssa (BlockId Function Op Scope ValueId)

variable {cx : Context} {f g : Function} {dom dom' : Scope} {p inner next : BlockId} {op : Op}
variable {fresh : List BlockId} {calls : List Nat} {s t : State} {r r' : Region}
variable {kind : RegionKind} {after : Option Result}

-- What the active block adds to the result of a region, if there is one: the top of the stack.
inductive State.Hands (s : State) : Option Result → Option Result → Prop
  | nothing : Hands s none none
  | value {v : ValueId} {res : Result} (hs : s.stack.head? = some (.value v))
    (ht : s.function.HasType v res.type) :
    Hands s (some res) (some { res with incoming := res.incoming ++ [(s.block, v)] })

theorem State.Hands.of_some {before : Option Result} {res' : Result} (h : s.Hands before (some res')) :
    ∃ res v, before = some res ∧ s.stack.head? = some (.value v) ∧
      s.function.HasType v res.type ∧
      res' = { res with incoming := res.incoming ++ [(s.block, v)] } := by
  cases h
  case value v res hs ht => exact ⟨res, v, rfl, hs, ht, rfl⟩

theorem State.Hands.type {before : Option Result} (h : s.Hands before after) :
    after.map Result.type = before.map Result.type := by
  cases h <;> rfl

-- How the active block of region `r` ends when the region does: live code goes to `next` and brings
-- the result, and dead code goes nowhere.
inductive State.Ends (s : State) (r : Region) (next : BlockId) : Op → Option Result → Prop
  | live {after : Option Result} (hl : s.isDead = false) (hh : s.Hands r.result after) :
    Ends s r next (.jump next) after
  | dead (hd : s.isDead = true) : Ends s r next .exit r.result

-- How the block `inner` of a region is entered whose continuation is `next`.
inductive Enters (inner next : BlockId) : RegionKind → Op → Prop
  | block : Enters inner next .block (.jump inner)
  | loop : Enters inner next (.loop inner) (.jump inner)
  | if_ (lhs : ValueId) (cond : Comparison) (rhs : ValueId) :
    Enters inner next (.if_ []) (.branch lhs cond rhs inner next)

-- What the exits of a region do not change.
structure Frame where
  header : Option BlockId
  continuation : BlockId
  type : Option Scalar
  height : Nat
  isLive : Bool

namespace Region

def frame (r : Region) : Frame where
  header := match r.kind with
    | .loop header => some header
    | _ => none
  continuation := r.continuation
  type := r.result.map Result.type
  height := r.height
  isLive := r.isLive

theorem continuation_congr (h : r'.frame = r.frame) : r'.continuation = r.continuation :=
  congrArg Frame.continuation h

theorem height_congr (h : r'.frame = r.frame) : r'.height = r.height :=
  congrArg Frame.height h

theorem isLive_congr (h : r'.frame = r.frame) : r'.isLive = r.isLive :=
  congrArg Frame.isLive h

theorem kind_eq_loop_iff {h : BlockId} : r.kind = .loop h ↔ r.frame.header = some h := by
  unfold frame
  split <;> simp_all

theorem base_congr (h : r'.frame = r.frame) (hd : dom' r.continuation = dom r.continuation) :
    r'.base dom' = r.base dom := by
  simp [base, continuation_congr h, hd]

theorem base_eq {outer : Set BlockId} (hd : dom r.continuation = insert r.continuation outer)
    (hn : r.continuation ∉ outer) : r.base dom = outer := by
  rw [base, hd, Set.insert_sdiff_self_of_notMem hn]

theorem map_continuation_congr {l l' : List Region} (h : l'.map frame = l.map frame) :
    l'.map continuation = l.map continuation := by
  have hm (l : List Region) : l.map continuation = (l.map frame).map Frame.continuation := by
    simp [Function.comp_def, frame]
  rw [hm, hm, h]

theorem nested_congr {l l' : List Region} (h : l'.map frame = l.map frame)
    (hd : ∀ r ∈ l, dom' r.continuation = dom r.continuation) (hn : l.Pairwise (Within dom)) :
    l'.Pairwise (Within dom') := by
  let W (a b : Frame) : Prop := ∀ r o : Region, r.frame = a → o.frame = b → r.Within dom' o
  have hw : (l.map frame).Pairwise W := by
    refine List.pairwise_map.mpr <| hn.imp_of_mem fun {a b} ha hb hab r o hr ho => ?_
    exact {
      live := by simpa only [isLive_congr hr, isLive_congr ho] using hab.live
      scope := by simpa only [base_congr hr (hd a ha), base_congr ho (hd b hb)] using hab.scope
      height := by simpa only [height_congr hr, height_congr ho] using hab.height }
  rw [← h] at hw
  exact (List.pairwise_map.mp hw).imp fun hab => hab _ _ rfl rfl

-- The region with one more exit, from block `p`.
def exit (r : Region) (p : BlockId) (after : Option Result) : Region :=
  { r.leave p with result := after }

theorem exit_frame (hh : s.Hands r.result after) : (r.exit p after).frame = r.frame := by
  cases hk : r.kind <;> simp [exit, leave, frame, hk, hh.type]

theorem exit_kind_eq_if_iff {breaks : List BlockId} : (r.exit p after).kind = .if_ breaks ↔
    ∃ old, r.kind = .if_ old ∧ breaks = old ++ [p] := by
  unfold exit leave
  split
  case h_1 old hk => simp [hk, eq_comm]
  case h_2 hk => exact ⟨fun h => absurd h (hk _), fun ⟨_, h, _⟩ => absurd h (hk _)⟩

theorem isIf_exit_iff : (r.exit p after).IsIf ↔ r.IsIf := by
  simp [IsIf, exit_kind_eq_if_iff]

end Region

namespace Region.Valid

-- A region that the block does not lead out of.
theorem pass (hr : r.Valid f dom) (hs : f.Sealed dom p op fresh g dom')
    (hc : r.continuation.index < f.blocks.size) (hp : r.continuation ≠ p)
    (ho : r.continuation ∉ op.successors) : r.Valid g dom' :=
  hr.transport hc hs.evolves (hs.insts hp (.inl hc)) (fun q => by simp [hs.mem_successors_iff, ho])
    fun _ hk => hs.noPhi (hr.header hk).2.1

theorem isLive_of_reaches (hr : r.Valid f dom) (h : f.Reaches r.continuation) : r.isLive = true := by
  cases h
  case entry he => exact absurd he hr.not_entry
  case step hp hb => exact (hr.live_iff hb).mp hp

-- Whether the code behind a region is dead.
theorem reaches_iff (hr : r.Valid f dom) (hf : f.Draft) : f.Reaches r.continuation ↔
    (!r.isLive || (f.predecessors r.continuation).isEmpty) = false := by
  simp only [Bool.or_eq_false_iff, Bool.not_eq_false', hf.wf.predecessors_isEmpty_eq_false_iff]
  constructor
  case mp =>
    rintro (he | ⟨hp, hb⟩)
    · exact absurd he hr.not_entry
    · exact ⟨(hr.live_iff hb).mp hp, _, hb⟩
  case mpr => exact fun ⟨hl, p, hb⟩ => .step ((hr.live_iff hb).mpr hl) hb

-- A region that has just been entered.
theorem start {height : Nat} {isLive : Bool} (hf : f.Draft) (hd : f.Scoped dom)
    (hs : f.Sealed dom p op [inner, next] g dom') (ho : f.Open p) (hn : inner ≠ next)
    (he : Enters inner next kind op) (hi : dom' inner = insert inner (dom p))
    (hx : dom' next = insert next (dom p)) (hres : ∀ res, after = some res → res.incoming = [])
    (hl : isLive = true ↔ f.Reaches p) : Valid g dom' ⟨kind, next, after, height, isLive⟩ := by
  have hfi : ¬inner.index < f.blocks.size := Nat.not_lt_of_le <| hs.created _ (by simp)
  have hfx : ¬next.index < f.blocks.size := Nat.not_lt_of_le <| hs.created _ (by simp)
  have hsucc (q) : next ∈ g.successors q ↔ q = p ∧ next ∈ op.successors := by
    rw [hs.mem_successors_iff]
    exact or_iff_right fun h => hfx (hf.linked.created h)
  refine ⟨?empty, ?not_entry, ?live_iff, ?incoming, ?merged, ?branched, ?header⟩
  case empty =>
    have hne : next ≠ p := by rintro rfl; exact hfx ho.created
    exact (hs.insts hne (.inr (by simp))).trans (Function.insts_eq_nil_of_not_created hfx)
  case not_entry =>
    intro he
    exact hfx (hf.wf.entry_created (hs.evolves.entry ▸ he))
  case live_iff =>
    intro q hq
    have ⟨hq, _⟩ := (hsucc q).mp hq
    rw [hs.reaches_iff, hq, hl]
    exact or_iff_left_of_imp And.left
  case incoming =>
    intro res hr i hm
    simp [hres res hr] at hm
  case merged =>
    intro res hr hif
    simp only [Result.sources, hres res hr, hsucc]
    cases he <;> simp [Op.successors, hn.symm, IsIf] at hif ⊢
  case branched =>
    intro breaks hk
    cases he <;> cases hk
    refine ⟨.nil, fun res hr => by simp [Result.sources, hres res hr], p, by simp, fun q => ?_⟩
    simp [hsucc, Op.successors]
  case header =>
    intro h hk
    cases he <;> cases hk
    have hne : inner ≠ p := by rintro rfl; exact hfi ho.created
    have hnil : g.insts inner = [] :=
      (hs.insts hne (.inr (by simp))).trans (Function.insts_eq_nil_of_not_created hfi)
    have ho' : g.Open inner := hs.open_iff.mpr (.inr (by simp))
    refine ⟨ho'.created, Function.noPhi_of_insts_eq_nil hnil, ?_, fun hv => ?_⟩
    · rw [base_eq hx fun hm => hfx (hd.created ho.created hm), hi]
    · exact hs.reaches_iff.mpr (.inr ⟨hl.mp hv, by simp [Op.successors]⟩)

end Region.Valid

namespace State.Valid

variable (hv : s.Valid cx dom calls)
include hv

theorem slots_of_evolves (he : s.function.Evolves dom g dom') (slot : Slot) (hm : slot ∈ cx.locals) :
    slot.Declared g :=
  (hv.slots slot hm).mono he.keeps he.entry

theorem calls_of_grows (hg : s.function.Grows g) (hc : g.callValues = s.function.callValues) :
    List.Forall₂ (LowersCall cx.callees g) g.callValues calls :=
  hc ▸ hv.calls.imp fun _ _ => .mono hg.keeps fun hd _ => hg.value hd

-- The blocks that stay open when the active one is closed.
theorem open_and_ne_iff {b : BlockId} :
    s.function.Open b ∧ b ≠ s.block ↔ ∃ r ∈ s.regions, r.continuation = b := by
  rw [hv.opens, or_and_right]
  constructor
  case mp => rintro (⟨h, hn⟩ | ⟨h, _⟩); exacts [absurd h hn, h]
  case mpr => rintro ⟨r, hr, rfl⟩; exact .inr ⟨⟨r, hr, rfl⟩, hv.continuation_ne_block hr⟩

theorem usable_head {v : ValueId} {ty : Scalar} (hs : s.stack.head? = some (.value v))
    (ht : s.function.HasType v ty) : s.function.Usable dom s.block v ty := by
  have ⟨_, hu⟩ := hv.stack (.value v) (List.mem_of_mem_head? hs)
  exact hu.hasType.unique ht ▸ hu

-- A region that the block leads out of, with its result.
theorem region_exit (hd : s.isDead = false) (hmem : r ∈ s.regions)
    (hs : s.function.Sealed dom s.block op fresh g dom') (hm : r.continuation ∈ op.successors)
    (hh : s.Hands r.result after) : (r.exit s.block after).Valid g dom' := by
  have hr := hv.regions r hmem
  have ho := hv.isOpen
  have hc := (hv.isOpen_continuation hmem).created
  have hp := hv.continuation_ne_block hmem
  have hl := (hv.within r hmem).live hd
  have hlp := hv.live_iff.mp hd
  have hg : (r.exit s.block after).frame = r.frame := Region.exit_frame hh
  have hgc := Region.continuation_congr hg
  have hgl := Region.isLive_congr hg
  have hn : r.continuation ∉ s.function.successors s.block := ho.not_mem_successors
  have hk {v ty} (hv : s.function.Usable dom s.block v ty) :
      g.Usable dom' s.block v ty :=
    hs.evolves.keeps.usable (hs.evolves.scope _ ho.created).symm.subset hv
  have hb : (r.exit s.block after).base dom' = r.base dom := Region.base_congr hg (hs.evolves.scope _ hc)
  refine ⟨?empty, ?not_entry, ?live_iff, ?incoming, ?merged, ?branched, ?header⟩
  case empty => rw [hgc, hs.insts hp (.inl hc), hr.empty]
  case not_entry => simpa only [hgc, hs.evolves.entry] using hr.not_entry
  case live_iff =>
    simp only [hgc, hgl, hs.mem_successors_iff]
    rintro q (hq | ⟨rfl, _⟩)
    · exact (hs.evolves.reaches_iff_of_mem_successors hq).trans (hr.live_iff hq)
    · exact iff_of_true (hs.evolves.reaches hlp) hl
  case incoming =>
    rintro res' rfl i hi
    have ⟨res, v, hres, hst, ht, he⟩ := hh.of_some
    have hu := hv.usable_head hst ht
    subst he
    rcases List.mem_append.mp hi with hi | hi
    · have ⟨hreach, hc, hu⟩ := hr.incoming hres i hi
      exact ⟨hs.evolves.reaches hreach, Nat.lt_of_lt_of_le hc hs.evolves.size,
        hs.evolves.keeps.usable (hs.evolves.scope _ hc).symm.subset hu⟩
    · cases List.mem_singleton.mp hi
      exact ⟨hs.evolves.reaches hlp, Nat.lt_of_lt_of_le ho.created hs.evolves.size, hk hu⟩
  case merged =>
    rintro res' rfl hif
    have ⟨res, v, hres, _, _, he⟩ := hh.of_some
    subst he
    have ⟨hnd, hiff⟩ := hr.merged hres (mt Region.isIf_exit_iff.mpr hif)
    have hnp : s.block ∉ res.sources := fun hp => hn ((hiff _).mp hp)
    simp only [Result.sources, List.map_append, hgc, hs.mem_successors_iff]
      at hnd hiff hnp ⊢
    refine ⟨List.Nodup.append hnd (by simp) (by simpa using hnp), fun q => ?_⟩
    simp [hiff q, hm]
  case branched =>
    intro breaks hkind
    have ⟨old, hold, he⟩ := Region.exit_kind_eq_if_iff.mp hkind
    subst he
    have ⟨hnd, hsrc, c, hc, hiff⟩ := hr.branched hold
    have hnp : s.block ∉ old := fun hp => hn ((hiff _).mpr (.inr hp))
    have hcp : c ≠ s.block := fun h => hn ((hiff _).mpr (.inl h.symm))
    have hnd := List.Nodup.append hnd (List.nodup_singleton s.block) (by simpa using hnp)
    refine ⟨hnd, ?_, c, by simp [hc, hcp], fun q => ?_⟩
    · rintro res' rfl
      have ⟨res, v, hres, _, _, he⟩ := hh.of_some
      simpa [he, Result.sources] using hsrc res hres
    · simp [hgc, hs.mem_successors_iff, hiff q, hm, or_assoc]
  case header =>
    intro h hkind
    have ⟨hc, hp, hd, hv⟩ := hr.header (Region.kind_eq_loop_iff.mpr (hg ▸ Region.kind_eq_loop_iff.mp hkind))
    have hv (hl : r.isLive = true) := hs.evolves.reaches (hv hl)
    refine ⟨Nat.lt_of_lt_of_le hc hs.evolves.size, hs.noPhi hp, ?_, hgl ▸ hv⟩
    rwa [hb, hs.evolves.scope _ hc]

-- The lowering goes on in a fresh block.
theorem leave (hs : s.function.Sealed dom s.block op [t.block] t.function dom')
    (hd : dom s.block ⊆ dom' t.block) (hl : t.isDead = false ↔ t.function.Reaches t.block)
    (hls : t.isDead = false → s.isDead = false)
    (hr : t.regions.map Region.frame = s.regions.map Region.frame)
    (hrv : ∀ r ∈ t.regions, r.Valid t.function dom') (hk : t.stack ⊆ s.stack)
    (hf : s.floor ≤ t.stack.length) (hb : ∀ h ≤ s.floor, t.below h = s.below h) :
    t.Valid cx dom' calls := by
  have hg {r'} (hm : r' ∈ t.regions) : ∃ r ∈ s.regions, r'.frame = r.frame := by
    have ⟨r, hr, he⟩ := List.mem_map.mp <| hr ▸ List.mem_map_of_mem hm
    exact ⟨r, hr, he.symm⟩
  have hc := Region.map_continuation_congr hr
  have hm (b) : (∃ r ∈ t.regions, r.continuation = b) ↔ ∃ r ∈ s.regions, r.continuation = b := by
    simpa only [List.mem_map] using iff_of_eq (congrArg (b ∈ ·) hc)
  have hcreated {r} (hr : r ∈ s.regions) := (hv.isOpen_continuation hr).created
  have hfresh {b : BlockId} (hb : b.index < s.function.blocks.size) : b ≠ t.block := by
    rintro rfl
    exact absurd hb (Nat.not_lt_of_le (hs.created _ (by simp)))
  have hdom {r} (hr : r ∈ s.regions) := hs.evolves.scope _ (hcreated hr)
  refine {
    draft := hs.draft
    scope := hs.scope
    opens := ?opens
    nodup := ?nodup
    live_iff := hl
    regions := hrv
    within := ?within
    nested := Region.nested_congr hr (fun r => hdom) hv.nested
    headers := ?headers
    stack := fun o ho => (hv.stack o (hk ho)).mono hs.grows.keeps hd
    below := ?below
    result := hs.evolves.result.trans hv.result
    slots := hv.slots_of_evolves hs.evolves
    calls := hv.calls_of_grows hs.grows hs.callValues }
  case opens =>
    intro b
    rw [hs.open_iff, hv.open_and_ne_iff, hm, List.mem_singleton, or_comm]
  case nodup =>
    rw [hc]
    refine List.nodup_cons.mpr ⟨fun hb => ?_, (List.nodup_cons.mp hv.nodup).2⟩
    have ⟨r, hr, he⟩ := List.mem_map.mp hb
    exact hfresh (hcreated hr) he
  case within =>
    intro r' hm
    have ⟨r, hr, he⟩ := hg hm
    have hw := hv.within r hr
    exact {
      live := fun hd => Region.isLive_congr he ▸ hw.live (hls hd)
      scope := Region.base_congr he (hdom hr) ▸ hw.scope.trans hd
      height := Region.height_congr he ▸ Nat.le_trans (hv.height_le_floor hr) hf }
  case headers =>
    intro r' hm h hk o' ho
    have ⟨r, hr, he⟩ := hg hm
    have ⟨o, ho, heo⟩ := hg ho
    rw [Region.continuation_congr heo]
    exact hv.headers r hr h (Region.kind_eq_loop_iff.mpr (he ▸ Region.kind_eq_loop_iff.mp hk)) o ho
  case below =>
    intro r' hm o ho
    have ⟨r, hr, he⟩ := hg hm
    rw [Region.height_congr he, hb _ (hv.height_le_floor hr)] at ho
    rw [Region.continuation_congr he]
    exact (hv.below r hr o ho).mono hs.grows.keeps (hdom hr).symm.subset

-- The lowering goes on behind the innermost region.
theorem resume {outer : List Region} (hr : s.regions = r :: outer)
    (hs : s.function.Sealed dom s.block op [] t.function dom) (hrv : r'.Valid t.function dom)
    (hrf : r'.frame = r.frame) (ho : ∀ o ∈ outer, o.continuation ∉ op.successors)
    (htb : t.block = r.continuation) (htr : t.regions = outer) (htk : t.stack = s.below r.height)
    (htd : t.isDead = (!r.isLive || (t.function.predecessors r.continuation).isEmpty)) :
    t.Valid cx dom calls := by
  have hmem {o} (ho : o ∈ outer) : o ∈ s.regions := by simp [hr, ho]
  have hw := hv.within r (by simp [hr])
  have ⟨hn, hnested⟩ := List.pairwise_cons.mp (hr ▸ hv.nested)
  have hbelow {o} (ho : o ∈ outer) : t.below o.height = s.below o.height := by
    simpa only [State.below, htk] using below_below (hn o ho).height hw.height
  refine {
    draft := hs.draft
    scope := hs.scope
    opens := ?opens
    nodup := ?nodup
    live_iff := ?live_iff
    regions := ?regions
    within := ?within
    nested := htr ▸ hnested
    headers := ?headers
    stack := ?stack
    below := ?below
    result := hs.evolves.result.trans hv.result
    slots := hv.slots_of_evolves hs.evolves
    calls := hv.calls_of_grows hs.grows hs.callValues }
  case opens =>
    intro b
    rw [hs.open_iff, hv.open_and_ne_iff, hr, htb, htr]
    simp [eq_comm]
  case nodup =>
    rw [htb, htr]
    simpa [hr] using (List.nodup_cons.mp hv.nodup).2
  case live_iff =>
    have hc : t.block = r'.continuation := htb.trans (Region.continuation_congr hrf).symm
    rw [hc, hrv.reaches_iff hs.draft, Region.isLive_congr hrf, ← hc, htb, htd]
  case regions =>
    rw [htr]
    intro o hm
    exact (hv.regions o (hmem hm)).pass hs (hv.isOpen_continuation (hmem hm)).created
      (hv.continuation_ne_block (hmem hm)) (ho o hm)
  case within =>
    rw [htr]
    intro o hm
    have ho := hn o hm
    refine ⟨fun hd => ho.live ?_, ?_, ?_⟩
    · rw [htd, Bool.or_eq_false_iff] at hd
      simpa using hd.1
    · exact htb ▸ ho.scope.trans Set.sdiff_subset
    · rw [htk, length_below hw.height]
      exact ho.height
  case headers =>
    rw [htr]
    exact fun o hm h hk o' hm' => hv.headers o (hmem hm) h hk o' (hmem hm')
  case stack =>
    rw [htk, htb]
    exact fun o ho => (hv.below r (by simp [hr]) o ho).mono hs.grows.keeps subset_rfl
  case below =>
    rw [htr]
    intro o hm a ha
    exact (hv.below o (hmem hm) a (hbelow hm ▸ ha)).mono hs.grows.keeps subset_rfl

-- The lowering goes on inside of a fresh region.
theorem start (hs : s.function.Sealed dom s.block op [inner, next] t.function dom')
    (hn : inner ≠ next) (he : Enters inner next kind op)
    (hi : dom' inner = insert inner (dom s.block)) (hx : dom' next = insert next (dom s.block))
    (hres : ∀ res, after = some res → res.incoming = []) (htb : t.block = inner)
    (htr : t.regions = ⟨kind, next, after, s.stack.length, !s.isDead⟩ :: s.regions)
    (htk : t.stack = s.stack) (htd : t.isDead = s.isDead) : t.Valid cx dom' calls := by
  have hcreated {r} (hr : r ∈ s.regions) := (hv.isOpen_continuation hr).created
  have hfi : ¬inner.index < s.function.blocks.size := Nat.not_lt_of_le <| hs.created _ (by simp)
  have hfx : ¬next.index < s.function.blocks.size := Nat.not_lt_of_le <| hs.created _ (by simp)
  have hnx : next ∉ dom s.block := fun hm => hfx (hv.scope.created hv.isOpen.created hm)
  have hdom {r} (hr : r ∈ s.regions) := hs.evolves.scope _ (hcreated hr)
  have hsub : dom s.block ⊆ dom' inner := hi ▸ Set.subset_insert ..
  have hl : (!s.isDead) = true ↔ s.function.Reaches s.block := by
    simpa using hv.live_iff
  have hbase : Region.base dom' ⟨kind, next, after, s.stack.length, !s.isDead⟩ = dom s.block :=
    Region.base_eq hx hnx
  have hbase' {r} (hr : r ∈ s.regions) : r.base dom' = r.base dom := by
    simp [Region.base, hdom hr]
  refine {
    draft := hs.draft
    scope := hs.scope
    opens := ?opens
    nodup := ?nodup
    live_iff := ?live_iff
    regions := ?regions
    within := ?within
    nested := ?nested
    headers := ?headers
    stack := ?stack
    below := ?below
    result := hs.evolves.result.trans hv.result
    slots := hv.slots_of_evolves hs.evolves
    calls := hv.calls_of_grows hs.grows hs.callValues }
  case opens =>
    intro b
    rw [hs.open_iff, hv.open_and_ne_iff, htb, htr]
    simp only [List.mem_cons, List.not_mem_nil, or_false, exists_eq_or_imp]
    grind
  case nodup =>
    have hni {r} (hr : r ∈ s.regions) : r.continuation ≠ inner := fun h => hfi (h ▸ hcreated hr)
    have hnx {r} (hr : r ∈ s.regions) : r.continuation ≠ next := fun h => hfx (h ▸ hcreated hr)
    have hnd := (List.nodup_cons.mp hv.nodup).2
    rw [htb, htr]
    grind
  case live_iff =>
    have hr : ¬s.function.Reaches inner := fun h => hfi (h.created hv.draft.wf hv.draft.linked)
    have hm : inner ∈ op.successors := by cases he <;> simp [Op.successors]
    rw [htd, htb, hs.reaches_iff, hv.live_iff]
    simp [hr, hm]
  case regions =>
    rw [htr]
    refine List.forall_mem_cons.mpr ⟨?_, fun r hr => ?_⟩
    · exact .start hv.draft hv.scope hs hv.isOpen hn he hi hx hres hl
    · refine (hv.regions r hr).pass hs (hcreated hr) (hv.continuation_ne_block hr) fun hm => ?_
      have hc := hcreated hr
      cases he <;> simp [Op.successors] at hm <;> grind
  case within =>
    rw [htr]
    refine List.forall_mem_cons.mpr ⟨?_, fun r hr => ?_⟩
    · exact ⟨by simp [htd], by rwa [hbase, htb], by simp [htk]⟩
    · have hw := hv.within r hr
      exact ⟨by simpa [htd] using hw.live, by rw [hbase' hr, htb]; exact hw.scope.trans hsub,
        by simpa [htk] using hw.height⟩
  case nested =>
    rw [htr]
    refine List.pairwise_cons.mpr ⟨fun r hr => ?_, ?_⟩
    · have hw := hv.within r hr
      exact ⟨by simpa using hw.live, by rw [hbase, hbase' hr]; exact hw.scope, hw.height⟩
    · exact Region.nested_congr rfl (fun r => hdom) hv.nested
  case headers =>
    rw [htr]
    refine List.forall_mem_cons.mpr ⟨fun h hk => ?_, fun r hr h hk => ?_⟩
    · cases he <;> cases hk
      refine List.forall_mem_cons.mpr ⟨hn.symm, fun o ho h => hfi (h ▸ hcreated ho)⟩
    · refine List.forall_mem_cons.mpr ⟨?_, hv.headers r hr h hk⟩
      rintro rfl
      exact hfx (hv.regions r hr |>.header hk).1
  case stack =>
    rw [htk, htb]
    exact fun o ho => (hv.stack o ho).mono hs.grows.keeps hsub
  case below =>
    rw [htr]
    refine List.forall_mem_cons.mpr ⟨fun o ho => ?_, fun r hr o ho => ?_⟩
    · have ho : o ∈ s.stack := List.mem_of_mem_drop (by simpa only [State.below, htk] using ho)
      exact (hv.stack o ho).mono hs.grows.keeps (hx ▸ Set.subset_insert ..)
    · have ho : o ∈ s.below r.height := by simpa only [State.below, htk] using ho
      exact (hv.below r hr o ho).mono hs.grows.keeps (hdom hr).symm.subset

section Else

variable {outer : List Region} {breaks : List BlockId} (hr : s.regions = r :: outer)
variable (hk : r.kind = .if_ breaks) (hs : s.function.Sealed dom s.block op [next] f dom')
include hr hk hs

-- The exits of an `if` can be moved over to a fresh continuation, since the condition stays.
theorem exists_moved (hd : dom' next = insert next (r.base dom))
    (hop : r.continuation ∉ op.successors) :
    ∃ g, breaks.forM (Function.retarget · r.continuation next) f = .ok () g ∧
      f.Moved dom' r.continuation next breaks g := by
  have hm : r ∈ s.regions := by simp [hr]
  have hrv := hv.regions r hm
  have ho := hv.isOpen_continuation hm
  have hne := hv.continuation_ne_block hm
  have hfx : ¬next.index < s.function.blocks.size := Nat.not_lt_of_le <| hs.created _ (by simp)
  have hp := hrv.pass hs ho.created hne hop
  have ⟨hnd, _, c, hcn, hiff⟩ := hrv.branched hk
  have hsucc {q} (hq : q = c ∨ q ∈ breaks) := (hiff q).mpr hq
  have hsucc' {q} (hq : q = c ∨ q ∈ breaks) : r.continuation ∈ f.successors q :=
    hs.mem_successors_iff.mpr (.inl (hsucc hq))
  refine Function.exists_moved hs.draft hs.scope (hs.open_iff.mpr (.inl ⟨ho, hne⟩)) hp.empty
    (hs.open_iff.mpr (.inr (by simp))) ?empty hnd ?edges ?scope ?other
  case empty =>
    have hb : next ≠ s.block := by rintro rfl; exact hfx hv.isOpen.created
    rw [hs.insts hb (.inr (by simp)), Function.insts_eq_nil_of_not_created hfx]
  case edges =>
    intro q hq
    refine ⟨hsucc' (.inr hq), fun hn => ?_⟩
    rcases hs.mem_successors_iff.mp hn with hn | ⟨rfl, _⟩
    · exact hfx (hv.draft.linked.created hn)
    · exact hv.isOpen.not_mem_successors (hsucc (.inr hq))
  case scope =>
    intro q hq
    have hc := hsucc (.inr hq)
    have hsub : r.base dom ⊆ dom q := Set.sdiff_singleton_subset_iff.mpr (hv.scope.edge hc)
    rw [hd, hs.evolves.scope q (Function.created_of_mem_successors hc)]
    exact Set.insert_subset_insert hsub
  case other =>
    intro q hq hqr
    refine ⟨c, hcn, ?_, hsucc' (.inl rfl)⟩
    exact (hp.live_iff (hsucc' (.inl rfl))).mpr ((hp.live_iff (hsucc' (.inr hq))).mp hqr)

variable (he : s.Ends r next op after) (hm : f.Moved dom' r.continuation next breaks g)
include he hm

theorem mem_successors_turn_iff {q : BlockId} :
    next ∈ g.successors q ↔ q ∈ breaks ∨ q = s.block ∧ s.isDead = false := by
  have hmem : r ∈ s.regions := by simp [hr]
  have ⟨_, _, c, _, hiff⟩ := (hv.regions r hmem).branched hk
  have hfx : ¬next.index < s.function.blocks.size := Nat.not_lt_of_le <| hs.created _ (by simp)
  have hb : s.block ∉ breaks := fun h => hv.isOpen.not_mem_successors ((hiff _).mpr (.inr h))
  have hn : next ∉ s.function.successors q := fun h => hfx (hv.draft.linked.created h)
  have hop : next ∈ op.successors ↔ s.isDead = false := by
    cases he <;> simp_all [Op.successors]
  rw [hm.mem_successors_iff hs.draft, hs.mem_successors_iff, hop]
  grind

-- The region of the other branch.
theorem region_turn :
    Region.Valid g dom' { r with kind := .else_, continuation := next, result := after } := by
  have hmem : r ∈ s.regions := by simp [hr]
  have hrv := hv.regions r hmem
  have hev := hs.evolves.trans hm.evolves
  have ⟨hnd, hsrc, c, _, hiff⟩ := hrv.branched hk
  have hfx : ¬next.index < s.function.blocks.size := Nat.not_lt_of_le <| hs.created _ (by simp)
  have hb : s.block ∉ breaks := fun h => hv.isOpen.not_mem_successors ((hiff _).mpr (.inr h))
  have hsucc {q} := hv.mem_successors_turn_iff hr hk hs he hm (q := q)
  have hin {res : Result} (hres : r.result = some res) {i} (hi : i ∈ res.incoming) :
      g.Reaches i.1 ∧ i.1.index < g.blocks.size ∧ g.Usable dom' i.1 i.2 res.type := by
    have ⟨hreach, hc, hu⟩ := hrv.incoming hres i hi
    exact ⟨hev.reaches hreach, Nat.lt_of_lt_of_le hc hev.size, hev.keeps.usable (hev.scope _ hc).symm.subset hu⟩
  refine ⟨?empty, ?not_entry, ?live_iff, ?incoming, ?merged, by simp, by simp⟩
  case empty =>
    have hne : next ≠ s.block := by rintro rfl; exact hfx hv.isOpen.created
    rw [hm.insts, hs.insts hne (.inr (by simp)), Function.insts_eq_nil_of_not_created hfx]
  case not_entry => exact fun he => hfx (hv.draft.wf.entry_created (hev.entry ▸ he))
  case live_iff =>
    intro q hq
    rcases hsucc.mp hq with hq | ⟨rfl, hl⟩
    · have hq := (hiff q).mpr (.inr hq)
      exact (hev.reaches_iff_of_mem_successors hq).trans (hrv.live_iff hq)
    · exact iff_of_true (hev.reaches (hv.live_iff.mp hl)) ((hv.within r hmem).live hl)
  case incoming =>
    rintro res' hres' i hi
    cases he
    case dead => exact hin hres' hi
    case live hl hh =>
      obtain rfl : after = some res' := hres'
      have ⟨res, v, hres, hst, ht, he⟩ := hh.of_some
      have hu := hv.usable_head hst ht
      subst he
      rcases List.mem_append.mp hi with hi | hi
      · exact hin hres hi
      · cases List.mem_singleton.mp hi
        exact ⟨hev.reaches (hv.live_iff.mp hl), Nat.lt_of_lt_of_le hv.isOpen.created hev.size,
          hev.keeps.usable (hev.scope _ hv.isOpen.created).symm.subset hu⟩
  case merged =>
    rintro res' hres' -
    simp only [hsucc]
    cases he
    case dead hdead =>
      rw [hsrc res' hres']
      exact ⟨hnd, by simp [hdead]⟩
    case live hl hh =>
      obtain rfl : after = some res' := hres'
      have ⟨res, v, hres, _, _, he⟩ := hh.of_some
      have hs' : res'.sources = breaks ++ [s.block] := by
        rw [← hsrc res hres]
        simp [he, Result.sources]
      rw [hs']
      exact ⟨List.Nodup.append hnd (by simp) (by simpa using hb), by simp [hl]⟩

-- The lowering goes on in the other branch of an `if`.
theorem turn (hd : dom' next = insert next (r.base dom)) (htf : t.function = g)
    (htb : t.block = r.continuation)
    (htr : t.regions = { r with kind := .else_, continuation := next, result := after } :: outer)
    (htk : t.stack = s.below r.height)
    (htd : t.isDead = (!r.isLive || (g.predecessors r.continuation).isEmpty)) :
    t.Valid cx dom' calls := by
  subst htf
  have hmem : r ∈ s.regions := by simp [hr]
  have hout {o} (ho : o ∈ outer) : o ∈ s.regions := by simp [hr, ho]
  have hev := hs.evolves.trans hm.evolves
  have hrv := hv.regions r hmem
  have hw := hv.within r hmem
  have hfx : ¬next.index < s.function.blocks.size := Nat.not_lt_of_le <| hs.created _ (by simp)
  have hcreated {o} (ho : o ∈ s.regions) := (hv.isOpen_continuation ho).created
  have hne {o} (ho : o ∈ s.regions) : o.continuation ≠ next := fun h => hfx (h ▸ hcreated ho)
  have hop {o} (ho : o ∈ s.regions) : o.continuation ∉ op.successors := by
    have := hne ho
    cases he <;> simp [Op.successors, this]
  have hdom {o} (ho : o ∈ s.regions) : dom' o.continuation = dom o.continuation :=
    hev.scope _ (hcreated ho)
  obtain ⟨hn, hnested⟩ := List.pairwise_cons.mp (hr ▸ hv.nested)
  have hnd : (r :: outer |>.map Region.continuation).Nodup := hr ▸ (List.nodup_cons.mp hv.nodup).2
  have hbase : Region.base dom' { r with kind := .else_, continuation := next, result := after } =
      r.base dom := by
    refine Region.base_eq hd fun hx => hfx ?_
    exact hv.scope.created (hcreated hmem) (Set.mem_of_mem_sdiff hx)
  have hbelow {h} (hh : h ≤ r.height) : t.below h = s.below h := by
    simpa only [State.below, htk] using below_below hh hw.height
  refine {
    draft := hm.draft
    scope := hm.scope
    opens := ?opens
    nodup := ?nodup
    live_iff := ?live_iff
    regions := ?regions
    within := ?within
    nested := ?nested
    headers := ?headers
    stack := ?stack
    below := ?below
    result := hev.result.trans hv.result
    slots := hv.slots_of_evolves hev
    calls := ?calls }
  case opens =>
    intro b
    rw [hm.open_iff, hs.open_iff, hv.open_and_ne_iff, hr, htb, htr]
    simp only [List.mem_cons, List.not_mem_nil, or_false, exists_eq_or_imp]
    grind
  case nodup =>
    have hnx {o} (ho : o ∈ outer) := hne (hout ho)
    have := hne hmem
    rw [htb, htr]
    grind
  case live_iff =>
    obtain ⟨_, _, c, hcn, hiff⟩ := hrv.branched hk
    have hp := hrv.pass hs (hcreated hmem) (hv.continuation_ne_block hmem) (hop hmem)
    have hc : r.continuation ∈ f.successors c :=
      hs.mem_successors_iff.mpr (.inl ((hiff c).mpr (.inl rfl)))
    have hc' : r.continuation ∈ t.function.successors c :=
      (hm.mem_successors_iff hs.draft).mpr (.inl ⟨hcn, hc⟩)
    rw [htb, htd, hm.reaches_iff, or_iff_left fun h => hne hmem h.1, hp.reaches_iff hs.draft]
    rw [hs.draft.wf.predecessors_isEmpty_eq_false_iff.mpr ⟨c, hc⟩,
      hm.draft.wf.predecessors_isEmpty_eq_false_iff.mpr ⟨c, hc'⟩]
  case regions =>
    rw [htr]
    refine List.forall_mem_cons.mpr ⟨hv.region_turn hr hk hs he hm, fun o ho => ?_⟩
    have hoc : o.continuation ≠ r.continuation := fun h =>
      (List.nodup_cons.mp hnd).1 (h ▸ List.mem_map_of_mem ho)
    have hp := (hv.regions o (hout ho)).pass hs (hcreated (hout ho))
      (hv.continuation_ne_block (hout ho)) (hop (hout ho))
    refine hp.transport ?_ hm.evolves (hm.insts _) (fun q => ?_) fun h hk => ?_
    · exact Nat.lt_of_lt_of_le (hcreated (hout ho)) hs.evolves.size
    · rw [hm.mem_successors_iff hs.draft]
      have := hne (hout ho)
      grind
    · exact hm.noPhi (hp.header hk).2.1
  case within =>
    have hl (h : t.isDead = false) : r.isLive = true := by
      rw [htd, Bool.or_eq_false_iff] at h
      simpa using h.1
    have hb : r.base dom ⊆ dom' t.block := by
      rw [htb, hdom hmem]
      exact Set.sdiff_subset
    have hlen : t.stack.length = r.height := by rw [htk, length_below hw.height]
    rw [htr]
    refine List.forall_mem_cons.mpr ⟨⟨hl, hbase ▸ hb, Nat.le_of_eq hlen.symm⟩, fun o ho => ?_⟩
    have hwo := hn o ho
    refine ⟨fun h => hwo.live (hl h), ?_, hlen ▸ hwo.height⟩
    rw [Region.base_congr rfl (hdom (hout ho))]
    exact hwo.scope.trans hb
  case nested =>
    rw [htr]
    refine List.pairwise_cons.mpr ⟨fun o ho => ?_, ?_⟩
    · have hwo := hn o ho
      refine ⟨hwo.live, ?_, hwo.height⟩
      rw [hbase, Region.base_congr rfl (hdom (hout ho))]
      exact hwo.scope
    · exact Region.nested_congr rfl (fun o ho => hdom (hout ho)) hnested
  case headers =>
    rw [htr]
    refine List.forall_mem_cons.mpr ⟨by simp, fun o ho h hk => ?_⟩
    refine List.forall_mem_cons.mpr ⟨?_, fun o' ho' => hv.headers o (hout ho) h hk o' (hout ho')⟩
    rintro rfl
    exact hfx (hv.regions o (hout ho) |>.header hk).1
  case stack =>
    rw [htk, htb]
    exact fun a ha => (hv.below r hmem a ha).mono hev.keeps (hdom hmem).symm.subset
  case below =>
    rw [htr]
    refine List.forall_mem_cons.mpr ⟨fun a ha => ?_, fun o ho a ha => ?_⟩
    · have ha := hbelow (Nat.le_refl _) ▸ ha
      refine (hv.below r hmem a ha).of_empty hv.draft.wf hrv.empty hev.keeps ?_
      rw [hd]
      exact Set.subset_insert ..
    · have ha := hbelow (hn o ho).height ▸ ha
      exact (hv.below o (hout ho) a ha).mono hev.keeps (hdom (hout ho)).symm.subset
  case calls =>
    rw [hm.callValues, hs.callValues]
    exact hv.calls.imp fun _ _ => .mono hev.keeps fun hd ht => hm.value (hs.grows.value hd) ht

end Else

end State.Valid

end StackCompiler.Lowering.Direct
