import StackCompiler.Ssa.Cleanup
import StackCompiler.Proofs.Semantics.Ssa
import StackCompiler.Proofs.Ssa.Soundness
import StackCompiler.Proofs.Ssa.Verification
import Mathlib.Data.List.Sublists

-- Pruning takes out exactly the blocks to which no path leads. What is left runs as before, and
-- there is nothing more to take out.

namespace StackCompiler

namespace Ssa

theorem Op.filterIncoming_of_not_isPhi {op : Op} {keep : BlockId → Bool} (h : op.isPhi = false) :
    op.filterIncoming keep = op := by
  cases op <;> simp_all [isPhi, filterIncoming]

@[simp]
theorem Op.isPhi_filterIncoming (keep : BlockId → Bool) (op : Op) :
    (op.filterIncoming keep).isPhi = op.isPhi := by
  cases op <;> rfl

-- A block that is kept still brings the same value to a phi.
theorem Op.source?_filterIncoming {op : Op} {keep : BlockId → Bool} {p : BlockId}
    (h : keep p = true) : (op.filterIncoming keep).source? p = op.source? p := by
  cases op
  case phi incoming =>
    simp only [filterIncoming, source?]
    induction incoming
    case nil => rfl
    case cons i incoming hi =>
      obtain ⟨q, x⟩ := i
      by_cases hp : p = q
      case pos => simp [← hp, h]
      case neg => cases hk : keep q <;> simp [hk, hi, List.lookup_cons, beq_eq_false_iff_ne.mpr hp]
  all_goals rfl

namespace Function

variable {f g : Function} {b p : BlockId} {v : ValueId} {d : ValueDef}

-- A definition as pruning leaves it if it takes out any block.
def shortened (f : Function) (d : ValueDef) : ValueDef :=
  if d.block.any (f.layout.filter f.reachable.contains).contains then
    { d with op := d.op.filterIncoming f.reachable.contains }
  else
    d

def shortenedAt (f : Function) (i : ValueId × ValueDef) : ValueId × ValueDef :=
  (i.1, f.shortened i.2)

@[simp]
theorem shortened_type : (f.shortened d).type = d.type := by
  unfold shortened
  split <;> rfl

@[simp]
theorem isPhi_shortened : (f.shortened d).op.isPhi = d.op.isPhi := by
  unfold shortened
  split
  · exact Op.isPhi_filterIncoming ..
  · rfl

theorem shortened_op_of_not_isPhi (h : d.op.isPhi = false) : (f.shortened d).op = d.op := by
  unfold shortened
  split
  · exact Op.filterIncoming_of_not_isPhi h
  · rfl

theorem source?_shortened (hp : p ∈ f.reachable) :
    (f.shortened d).op.source? p = d.op.source? p := by
  unfold shortened
  split
  · exact Op.source?_filterIncoming (by simpa using hp)
  · rfl

-- The function that pruning leaves if it takes out any block.
def shorten (f : Function) : Function :=
  { f with
    layout := f.layout.filter f.reachable.contains
    values := f.values.map f.shortened }

theorem prune_cases (f : Function) :
    f.prune = (0, f) ∨ f.prune.2 = f.shorten := by
  simp only [prune]
  split
  · exact .inl rfl
  · exact .inr rfl

@[simp]
theorem shorten_value? : f.shorten.value? v = (f.value? v).map f.shortened := by
  simp [shorten, value?]

@[simp]
theorem shorten_type? : f.shorten.type? v = f.type? v := by
  rw [type?, type?, shorten_value?, Option.bind_map]
  exact Option.bind_congr fun d _ => shortened_type

theorem shorten_instructions :
    f.shorten.instructions b = (f.instructions b).map f.shortenedAt := by
  have hi : f.shorten.insts b = f.insts b := rfl
  rw [instructions_eq, instructions_eq, hi, List.map_filterMap]
  refine List.filterMap_congr fun v _ => ?_
  rw [shorten_value?]
  cases f.value? v <;> rfl

theorem shorten_code (hb : b ∈ f.reachable) : f.shorten.code b = (f.code b).map f.shortenedAt := by
  have hl : b ∈ f.shorten.layout ↔ b ∈ f.layout := by simp [shorten, hb]
  unfold code
  simp only [hl]
  split
  · exact shorten_instructions
  · rfl

theorem lookup_map_shortenedAt {l : List (ValueId × ValueDef)} :
    (l.map f.shortenedAt).lookup v = (l.lookup v).map f.shortened := by
  induction l
  case nil => rfl
  case cons i l hi =>
    obtain ⟨u, d⟩ := i
    simp only [List.map_cons, shortenedAt, List.lookup_cons]
    split
    · rfl
    · exact hi

end Function

namespace Config

variable {I : Interpretation} {f : Function} {b : BlockId} {c c' : Config I} {v : ValueId}
variable {d : ValueDef} {rest : List (ValueId × ValueDef)}

-- The second configuration is the first one in the pruned function, in a block that paths reach and
-- leave only for blocks that they reach.
structure Shortens (f : Function) (c c' : Config I) : Prop where
  eq : c' = { c with rest := c.rest.map f.shortenedAt }
  reached : c.block ∈ f.reachable
  leads : ∀ i ∈ c.rest, ∀ b ∈ i.2.op.successors, b ∈ f.reachable

theorem merge_shortenedAt (hc : c.block ∈ f.reachable) :
    c.merge (rest.map f.shortenedAt) = c.merge rest := by
  simp only [merge, Function.lookup_map_shortenedAt]
  congr 1
  funext v
  cases rest.lookup v
  case none => rfl
  case some d => simp [Function.source?_shortened hc]

section Step

-- Paths lead from blocks that they reach to blocks that they reach.
variable (hf : ∀ b ∈ f.reachable, ∀ i ∈ f.code b, ∀ t ∈ i.2.op.successors, t ∈ f.reachable)
include hf

theorem Shortens.enter (h : Shortens f c c') (hb : b ∈ f.reachable) :
    Shortens f (c.enter f b) (c'.enter f.shorten b) := by
  obtain ⟨rfl, hc, -⟩ := h
  have hphi : (fun i : ValueId × ValueDef => i.2.op.isPhi) ∘ f.shortenedAt = fun i => i.2.op.isPhi := by
    funext i
    exact Function.isPhi_shortened
  have hm : ({ c with rest := c.rest.map f.shortenedAt } : Config I).merge
      (((f.code b).takeWhile (·.2.op.isPhi)).map f.shortenedAt) =
      { c.merge ((f.code b).takeWhile (·.2.op.isPhi)) with rest := c.rest.map f.shortenedAt } :=
    merge_shortenedAt (c := { c with rest := c.rest.map f.shortenedAt }) hc
  refine ⟨?_, hb, fun i hi => hf b hb i ((List.dropWhile_sublist _).subset hi)⟩
  simp only [Config.enter, Function.shorten_code hb, List.takeWhile_map, List.dropWhile_map, hphi, hm]

omit hf in
theorem Shortens.compute {type : Scalar} {op : Op} (h : Shortens f c c') :
    c'.compute f.shorten type op = c.compute f type op := by
  obtain ⟨rfl, -, -⟩ := h
  cases op <;> simp only [Config.compute, Function.shorten_type?] <;> rfl

omit hf in
theorem Shortens.store {type : Scalar} {x : I.Value} {a : Datum I} (h : Shortens f c c') :
    InStep (Shortens f) (do return .run (← c.store type x a) : I.Effect (Result I))
      (do return .run (← c'.store type x a)) := by
  obtain ⟨rfl, hc, hl⟩ := h
  have hsame : Shortens f c { c with rest := c.rest.map f.shortenedAt } := ⟨rfl, hc, hl⟩
  cases a <;> simp only [Config.store, bind_assoc, pure_bind]
  case value => exact .bind fun _ => .run hsame
  case slot => exact .run ⟨rfl, hc, hl⟩
  case global => exact .bind fun _ => .run hsame

theorem Shortens.execute (h : Shortens f c c') (hd : ∀ b ∈ d.op.successors, b ∈ f.reachable) :
    Option.Rel (InStep (Shortens f)) (c.execute f v d) (c'.execute f.shorten v (f.shortened d)) := by
  have hassign (x : Datum I) : Shortens f (c.assign v x) (c'.assign v x) := by
    obtain ⟨rfl, hc, hl⟩ := h
    exact ⟨rfl, hc, hl⟩
  have henter {b} (hb : b ∈ f.reachable) := h.enter hf hb
  have hread : c'.read = c.read := by
    obtain ⟨rfl, -, -⟩ := h
    rfl
  have henv : c'.env = c.env := by
    obtain ⟨rfl, -, -⟩ := h
    rfl
  cases hp : d.op.isPhi
  case true =>
    obtain ⟨incoming, ho⟩ := Op.eq_phi_of_isPhi hp
    obtain ⟨kept, hk⟩ := Op.eq_phi_of_isPhi (Function.isPhi_shortened (f := f).trans hp)
    simp only [Config.execute, ho, hk, Config.compute]
    cases d.type <;> cases (f.shortened d).type <;> exact .none
  case false =>
    simp only [Config.execute, Function.shortened_op_of_not_isPhi (f := f) hp, Function.shortened_type,
      hread, henv, h.compute, Function.shorten_type?]
    cases hop : d.op <;> simp only
    case alloc => exact .some (.run (hassign _))
    case globalAddr => exact .some (.run (hassign _))
    case store =>
      exact optionRel_bind fun _ => optionRel_bind fun _ => optionRel_bind fun _ => .some h.store
    case call =>
      refine optionRel_bind fun _ => .some (.bind fun _ => ?_)
      split
      · exact .run (hassign _)
      · exact .run h
    case jump => exact .some (.run (henter (hd _ (by simp [hop, Op.successors]))))
    case branch =>
      refine optionRel_bind fun _ => optionRel_bind fun _ => optionRel_bind fun _ => ?_
      refine .some (.bind fun taken => ?_)
      cases taken
      · exact .run (henter (hd _ (by simp [hop, Op.successors])))
      · exact .run (henter (hd _ (by simp [hop, Op.successors])))
    case ret => exact optionRel_bind fun _ => .some .halt
    case exit => exact .some .halt
    case phi => simp [hop, Op.isPhi] at hp
    all_goals
      exact optionRel_bind fun _ => optionRel_bind fun _ => .some (.bind fun _ => .run (hassign _))

theorem lockstep_shorten : Lockstep (step f) (step f.shorten) (Shortens f (I := I)) := by
  intro c c' h
  obtain ⟨rfl, hc, hl⟩ := h
  cases hr : c.rest
  case nil => simpa only [step, hr, List.map_nil] using .none
  case cons i rest =>
    rw [hr, List.forall_mem_cons] at hl
    simp only [step, hr, List.map_cons, Function.shortenedAt]
    exact Shortens.execute (c := { c with rest := rest }) hf ⟨rfl, hc, hl.right⟩ hl.left

end Step

end Config

namespace Function

variable {f g : Function} {b p : BlockId} {j : Journal}

-- Every phi of block `b` takes one value from each block of the layout that can go to `b`.
def PhisSound (f : Function) (b : BlockId) : Prop :=
  ∀ v ∈ f.insts b, ∀ d incoming, f.value? v = some d → d.op = .phi incoming → f.PhiSound b incoming

-- What is left of `f` when the blocks are taken out that no path reaches.
open Classical in
structure PrunesTo (f g : Function) : Prop where
  -- Only the layout and phis can differ.
  eq : g = { f with layout := g.layout, values := g.values }
  layout : g.layout = f.layout.filter (f.Reaches ·)
  terminator : ∀ b, g.terminator? b = f.terminator? b
  size : g.values.size = f.values.size
  value : ∀ v d, f.value? v = some d → (∀ b ∈ g.layout, v ∈ f.insts b → d.op.isPhi = false) →
    g.value? v = some d
  -- A phi keeps what reachable blocks bring and loses what the blocks bring that are taken out.
  phi : ∀ b ∈ g.layout, ∀ v ∈ f.insts b, ∀ d incoming, f.value? v = some d → d.op = .phi incoming →
    ∃ kept, g.value? v = some { d with op := .phi kept } ∧ kept.Sublist incoming ∧
      (∀ p, f.Reaches p → kept.filter (·.1 = p) = incoming.filter (·.1 = p)) ∧
      ∀ p ∈ f.layout, ¬f.Reaches p → p ∉ kept.map Prod.fst

namespace PrunesTo

variable (h : f.PrunesTo g)
include h

theorem mem_layout_iff : b ∈ g.layout ↔ b ∈ f.layout ∧ f.Reaches b := by
  simp [h.layout]

theorem blocks : g.blocks = f.blocks := by
  rw [h.eq]

theorem insts : g.insts b = f.insts b := by
  simp only [Function.insts, block?, h.blocks]

theorem successors : g.successors b = f.successors b :=
  successors_congr (h.terminator b)

-- The edges from the blocks that were taken out and the values that they brought go together.
theorem phisSound (hb : b ∈ g.layout) (hf : f.PhisSound b) : g.PhisSound b := by
  intro v hv d' kept' hd' ho'
  rw [h.insts] at hv
  have hi : v.index < f.values.size := h.size ▸ index_lt_of_value? hd'
  obtain ⟨d, hd⟩ : ∃ d, f.value? v = some d := ⟨_, Array.getElem?_eq_getElem hi⟩
  cases hp : d.op.isPhi
  case false =>
    have hd := h.value v d hd fun _ _ _ => hp
    cases hd.symm.trans hd'
    simp [ho', Op.isPhi] at hp
  case true =>
    obtain ⟨incoming, ho⟩ := Op.eq_phi_of_isPhi hp
    obtain ⟨kept, hk, hsub, hsame, hlost⟩ := h.phi b hb v hv d incoming hd ho
    cases hk.symm.trans hd'
    cases ho'
    have hsound := hf v hv d incoming hd ho
    refine ⟨(hsub.map Prod.fst).nodup hsound.nodup, fun p => ?_⟩
    rw [h.mem_layout_iff, h.successors, and_right_comm, ← hsound.mem_iff]
    constructor
    case mp =>
      intro hp
      have hi := (hsub.map Prod.fst).subset hp
      refine ⟨hi, ?_⟩
      by_contra hn
      exact hlost p ((hsound.mem_iff p).mp hi).left hn hp
    case mpr =>
      rintro ⟨hi, hr⟩
      obtain ⟨i, hm, rfl⟩ := List.mem_map.mp hi
      have hm : i ∈ kept'.filter (·.1 = i.1) := hsame i.1 hr ▸ List.mem_filter.mpr ⟨hm, by simp⟩
      exact List.mem_map_of_mem (List.mem_filter.mp hm).left

end PrunesTo

section Built

variable (h : f.Built fun _ _ => True)
variable (hr : ∀ p, ∀ b ∈ f.successors p, b.index < f.blocks.size)
include h hr

theorem mem_reachable_iff_of_built : b ∈ f.reachable ↔ f.Reaches b :=
  h.consistent.mem_reachable_iff (checkEdges_eq_ok_iff.mpr fun p _ => hr p)

theorem prune_layout_eq [DecidablePred f.Reaches] :
    f.prune.2.layout = f.layout.filter (f.Reaches ·) := by
  rw [prune_layout]
  refine List.filter_congr fun b _ => ?_
  rw [Bool.eq_iff_iff, List.contains_iff_mem, mem_reachable_iff_of_built h hr, decide_eq_true_eq]

omit hr in
theorem shortened_eq_self (hd : f.value? v = some d)
    (hn : ∀ b ∈ f.shorten.layout, v ∈ f.insts b → d.op.isPhi = false) : f.shortened d = d := by
  unfold shortened
  split
  case isFalse => rfl
  case isTrue hb =>
    obtain ⟨b, hb, hm⟩ := (Option.any_eq_true ..).mp hb
    rw [Op.filterIncoming_of_not_isPhi (hn b (by simpa [shorten] using hm) (h.filed hd hb))]

omit hr in
theorem shortened_phi {incoming : List (BlockId × ValueId)} (hb : b ∈ f.shorten.layout)
    (hv : v ∈ f.insts b) (hd : f.value? v = some d) (ho : d.op = .phi incoming) :
    f.shortened d = { d with op := .phi (incoming.filter fun i => f.reachable.contains i.1) } := by
  obtain ⟨d', hd', hb'⟩ := h.consistent.listed hv
  cases hd.symm.trans hd'
  have hm : d.block.any (f.layout.filter f.reachable.contains).contains = true := by
    simpa [hb', shorten] using hb
  rw [shortened, if_pos hm, ho, Op.filterIncoming]

theorem prunesTo_prune : f.PrunesTo f.prune.2 := by
  classical
  have hreach {b} : b ∈ f.reachable ↔ f.Reaches b := mem_reachable_iff_of_built h hr
  have hlayout := prune_layout_eq h hr
  rcases prune_cases f with hp | hp
  case inl =>
    rw [hp] at hlayout ⊢
    refine ⟨rfl, hlayout, fun _ => rfl, rfl, fun _ _ hd _ => hd, fun b _ v _ d incoming hd ho => ?_⟩
    refine ⟨incoming, by rw [← ho]; exact hd, .refl _, fun _ _ => rfl, fun p hp hn => ?_⟩
    rw [hlayout] at hp
    simp [hn] at hp
  case inr =>
    have hterminator (b) := h.consistent.listed.prune_terminator? (b := b)
    rw [hp] at hlayout hterminator ⊢
    refine ⟨rfl, hlayout, hterminator, Array.size_map, fun v d hd hn => ?value,
      fun b hb v hv d incoming hd ho => ?phi⟩
    case value => rw [shorten_value?, hd, Option.map_some, shortened_eq_self h hd hn]
    case phi =>
      refine ⟨incoming.filter fun i => f.reachable.contains i.1, ?_, List.filter_sublist, fun p hp => ?_,
        fun p _ hn => by simp [hreach, hn]⟩
      · rw [shorten_value?, hd, Option.map_some, shortened_phi h hb hv hd ho]
      · rw [List.filter_filter]
        refine List.filter_congr fun i _ => ?_
        by_cases hi : i.1 = p <;> simp [hi, hreach, hp]

theorem leads_of_code (hb : b ∈ f.reachable) :
    ∀ i ∈ f.code b, ∀ t ∈ i.2.op.successors, t ∈ f.reachable := by
  intro i hi t ht
  obtain ⟨v, d⟩ := i
  have hm : (v, d) ∈ f.instructions b := by
    unfold code at hi
    split at hi
    · exact hi
    · simp at hi
  obtain ⟨hv, hd⟩ := mem_instructions_iff.mp hm
  have hend : d.op.isTerminator = true := by
    by_contra hn
    rw [Bool.not_eq_true] at hn
    simp [Op.successors_eq_nil_of_not_isTerminator hn] at ht
  have hs := successors_of_terminator? (h.straight.terminator?_of_mem_insts hv hd hend)
  exact mem_reachable_of_edge hb (hs ▸ ht) (hr b t (hs ▸ ht))

-- Runs do not tell the two functions apart.
theorem ends_prune_iff {I : Interpretation} {args : List I.Value} {w : World I.Value I.Memory}
    {o : I.Outcome} : f.prune.2.Ends args w o ↔ f.Ends args w o := by
  rcases prune_cases f with hp | hp
  case inl => rw [hp]
  case inr =>
    rw [hp]
    refine exists_congr fun entry => and_congr_right fun he => ?_
    have hreach : entry ∈ f.reachable := mem_reachable_of_entry he (h.consistent.entry_created he)
    have hf (b) (hb : b ∈ f.reachable) := leads_of_code h hr hb
    refine (Config.lockstep_shorten hf).ends_iff (.run ⟨?_, hreach, hf entry hreach⟩)
    simp only [Config.start, shorten_code hreach, shorten_value?]
    congr 1
    funext v
    cases hv : f.value? v
    case none => rfl
    case some d =>
      simp only [Option.map_some]
      cases hp : d.op.isPhi
      case false => rw [shortened_op_of_not_isPhi hp]
      case true =>
        obtain ⟨_, ho⟩ := Op.eq_phi_of_isPhi hp
        obtain ⟨_, hk⟩ := Op.eq_phi_of_isPhi (isPhi_shortened (f := f).trans hp)
        rw [ho, hk]

end Built

theorem checkedPrune_eq_ok (hr : ∀ p, ∀ b ∈ f.successors p, b.index < f.blocks.size) :
    f.checkedPrune j = .ok f.prune
      (if f.prune.1 = 0 then j else j.record (.unreachableRemoved f.name f.prune.1)) := by
  have hc : f.checkEdges = .ok () := checkEdges_eq_ok_iff.mpr fun p _ => hr p
  simp only [checkedPrune, pruneNoted, hc]
  generalize f.prune = r
  obtain ⟨removed, g⟩ := r
  cases removed <;> rfl

-- A second time there is nothing to take out.
theorem Consistent.prune_prune (h : f.Consistent) : f.prune.2.prune = (0, f.prune.2) := by
  have hs (b) := h.listed.prune_successors (b := b)
  have hreach : f.prune.2.reachable = f.reachable := by
    rw [reachable, reachable, reachable.go_congr hs, prune_entry, Function.created, Function.created,
      prune_blocks]
  have hlayout : f.prune.2.layout.filter f.prune.2.reachable.contains = f.prune.2.layout := by
    refine List.filter_eq_self.mpr fun b hb => ?_
    simpa [hreach] using (mem_prune_layout_iff.mp hb).right
  rw [Function.prune, hlayout, Nat.sub_self, if_pos rfl]

theorem length_prune_layout : f.prune.1 + f.prune.2.layout.length = f.layout.length := by
  have hle : (f.layout.filter f.reachable.contains).length ≤ f.layout.length :=
    List.length_filter_le ..
  simp only [prune]
  split
  · exact Nat.zero_add _
  · exact Nat.sub_add_cancel hle

-- Pruning succeeds and takes out exactly the blocks that no path reaches, with the values that they
-- bring to phis and nothing else. Phis that fit the edges go on to do so, runs end as before, and
-- pruning again changes nothing.
theorem checkedPrune_prunesTo (h : f.Built fun _ _ => True)
    (hr : ∀ p, ∀ b ∈ f.successors p, b.index < f.blocks.size) (j : Journal) :
    ∃ removed g, f.checkedPrune j =
        .ok (removed, g) (if removed = 0 then j else j.record (.unreachableRemoved f.name removed)) ∧
      f.PrunesTo g ∧ removed + g.layout.length = f.layout.length ∧
      ((∀ b ∈ f.layout, f.Reaches b → f.PhisSound b) → ∀ b ∈ g.layout, g.PhisSound b) ∧
      (∀ (I : Interpretation) (args : List I.Value) w o, g.Ends args w o ↔ f.Ends args w o) ∧
      ∀ k, g.checkedPrune k = .ok (0, g) k := by
  have hp := prunesTo_prune h hr
  refine ⟨f.prune.1, f.prune.2, checkedPrune_eq_ok hr, hp, length_prune_layout, fun hf b hb => ?sound,
    fun I args w o => ends_prune_iff h hr, fun k => ?again⟩
  case sound =>
    obtain ⟨hl, hreach⟩ := hp.mem_layout_iff.mp hb
    exact hp.phisSound hb (hf b hl hreach)
  case again =>
    have hg : ∀ p, ∀ b ∈ f.prune.2.successors p, b.index < f.prune.2.blocks.size := by
      intro p b hb
      rw [hp.successors] at hb
      rw [hp.blocks]
      exact hr p b hb
    rw [checkedPrune_eq_ok hg, h.consistent.prune_prune]
    rfl

-- Two ways to a block with a phi, and a third one from a block that nothing leads to.
def forked : Function :=
  (((((empty "f" (some .i32)).addParam "a" .i32).2.addBlock "entry").2.addBlock "then").2.addBlock
    "join").2.addBlock "dead" |>.2
    |>.emit ⟨0⟩ "" none (.branch ⟨0⟩ .lt ⟨0⟩ ⟨1⟩ ⟨2⟩)
    |>.emit ⟨1⟩ "" none (.jump ⟨2⟩)
    |>.emit ⟨3⟩ "" none (.jump ⟨2⟩)
    |>.emit ⟨2⟩ "phi" (some .i32) (.phi [(⟨0⟩, ⟨0⟩), (⟨3⟩, ⟨0⟩), (⟨1⟩, ⟨0⟩)])
    |>.emit ⟨2⟩ "" none (.ret ⟨4⟩)

theorem forked_built : forked.Built fun _ _ => True := by
  refine .emit (.emit (.emit (.emit (.emit (.addBlock (.addBlock (.addBlock (.addBlock (.addParam
    (.empty ..) _ _) _) _) _) _) ?_ ?_ rfl) ?_ ?_ rfl) ?_ ?_ rfl) ?_ ?_ rfl) ?_ ?_ rfl
  all_goals decide

theorem checkedPrune_prunesTo_forked :
    forked.Built (fun _ _ => True) ∧ (∀ p, ∀ b ∈ forked.successors p, b.index < forked.blocks.size) ∧
    ∃ g, forked.checkedPrune #[] = .ok (1, g) #[.unreachableRemoved "f" 1] ∧
      forked.PrunesTo g ∧ g.layout = [⟨0⟩, ⟨1⟩, ⟨2⟩] ∧
      g.value? ⟨4⟩ = some ⟨"phi", some .i32, .phi [(⟨0⟩, ⟨0⟩), (⟨1⟩, ⟨0⟩)], some ⟨2⟩⟩ ∧
      (∀ b ∈ g.layout, g.PhisSound b) ∧ g.checkedPrune #[] = .ok (0, g) #[] := by
  have hrange : ∀ p, ∀ b ∈ forked.successors p, b.index < forked.blocks.size :=
    forall_successors_of_created (by decide)
  have hentry : forked.Reaches ⟨0⟩ := .entry rfl
  have hthen : forked.Reaches ⟨1⟩ := hentry.step (by decide)
  have hjoin : forked.Reaches ⟨2⟩ := hentry.step (by decide)
  have hdead : ¬forked.Reaches ⟨3⟩ := by
    intro h
    cases h
    case entry he => cases he
    case step p _ hb =>
      have hne : ∀ p, ∀ b ∈ forked.successors p, b ≠ ⟨3⟩ := forall_successors_of_created (by decide)
      exact hne p _ hb rfl
  have hlisted := forked_built.consistent.listed
  have hsound : ∀ b ∈ forked.layout, forked.Reaches b → forked.PhisSound b := by
    have hlayout : forked.layout = [⟨0⟩, ⟨1⟩, ⟨2⟩, ⟨3⟩] := rfl
    simp only [hlayout, List.forall_mem_cons]
    refine ⟨fun h => ?_, fun h => ?_, fun h => ?_, fun h => absurd h hdead, by simp⟩
    all_goals exact (blockSound_of_checkBlock hlisted rfl h rfl).phi
  obtain ⟨removed, g, hx, hp, hlen, hphis, -, hagain⟩ :=
    checkedPrune_prunesTo forked_built hrange #[]
  have hlayout : g.layout = [⟨0⟩, ⟨1⟩, ⟨2⟩] := by
    rw [hp.layout]
    simp [show forked.layout = [⟨0⟩, ⟨1⟩, ⟨2⟩, ⟨3⟩] from rfl, hentry, hthen, hjoin, hdead]
  have hremoved : removed = 1 := by
    rw [hlayout] at hlen
    exact Nat.add_right_cancel (m := 3) hlen
  subst hremoved
  have hphi : g.value? ⟨4⟩ = some ⟨"phi", some .i32, .phi [(⟨0⟩, ⟨0⟩), (⟨1⟩, ⟨0⟩)], some ⟨2⟩⟩ := by
    obtain ⟨kept, hk, hsub, hsame, hlost⟩ :=
      hp.phi ⟨2⟩ (by simp [hlayout]) ⟨4⟩ (by decide) _ _ rfl rfl
    have hone : ∀ kept ∈ [(⟨0⟩, ⟨0⟩), (⟨3⟩, ⟨0⟩), ((⟨1⟩, ⟨0⟩) : BlockId × ValueId)].sublists,
        kept.filter (·.1 = ⟨0⟩) = [(⟨0⟩, ⟨0⟩)] → kept.filter (·.1 = ⟨1⟩) = [(⟨1⟩, ⟨0⟩)] →
        ⟨3⟩ ∉ kept.map Prod.fst → kept = [(⟨0⟩, ⟨0⟩), (⟨1⟩, ⟨0⟩)] := by
      decide
    rw [hone kept (List.mem_sublists.mpr hsub) (hsame _ hentry) (hsame _ hthen)
      (hlost _ (by decide) hdead)] at hk
    exact hk
  exact ⟨forked_built, hrange, g, hx, hp, hlayout, hphi, hphis hsound, hagain #[]⟩

end Function

end Ssa

end StackCompiler
