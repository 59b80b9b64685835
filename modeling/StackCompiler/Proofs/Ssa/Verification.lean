import StackCompiler.Proofs.Ssa.Finish
import StackCompiler.Proofs.Ssa.History

-- What the check of a function decides, for all functions that the public operations can make, and
-- how much of it control flow can leave behind.

namespace StackCompiler.Ssa.Function

variable {f : Function} {b e p : BlockId} {v : ValueId} {d : ValueDef} {live : List BlockId}
variable {incoming : List (BlockId × ValueId)} {type : Option Scalar} {lhs rhs : ValueId}
variable {defs : List ValueDef} {inPhis : Bool}

def IsTerminator (f : Function) (v : ValueId) : Prop :=
  (f.value? v).any (·.op.isTerminator) = true
deriving Decidable

def IsPhi (f : Function) (v : ValueId) : Prop :=
  (f.value? v).any (·.op.isPhi) = true
deriving Decidable

-- A phi of block `b` takes one value from each block of the layout that can go to `b`.
structure PhiSound (f : Function) (b : BlockId) (incoming : List (BlockId × ValueId)) : Prop where
  nodup : (incoming.map Prod.fst).Nodup
  mem_iff : ∀ p, p ∈ incoming.map Prod.fst ↔ p ∈ f.layout ∧ b ∈ f.successors p

-- A block without a fault.
structure BlockSound (f : Function) (b : BlockId) : Prop where
  reached : f.Reaches b
  closed : ∃ body last, f.insts b = body ++ [last] ∧ f.IsTerminator last ∧
    ∀ v ∈ body, ¬f.IsTerminator v
  phis_first : (f.insts b).Pairwise fun u v => f.IsPhi v → f.IsPhi u
  entry : f.entry = some b → ∀ v ∈ f.insts b, ¬f.IsPhi v
  phi : ∀ v ∈ f.insts b, ∀ d incoming, f.value? v = some d → d.op = .phi incoming →
    f.PhiSound b incoming
  binary : ∀ v ∈ f.insts b, ∀ d op lhs rhs, f.value? v = some d → d.op = .binary op lhs rhs →
    f.typeOf lhs = .ok d.type ∧ f.typeOf rhs = .ok d.type

theorem isTerminator_iff (hd : f.value? v = some d) :
    f.IsTerminator v ↔ d.op.isTerminator = true := by
  simp [IsTerminator, hd]

theorem isPhi_iff (hd : f.value? v = some d) : f.IsPhi v ↔ d.op.isPhi = true := by
  simp [IsPhi, hd]

theorem mem_phis_iff : v ∈ f.phis b ↔ v ∈ f.insts b ∧ f.IsPhi v := by
  constructor
  case mp =>
    intro hv
    obtain ⟨d, hm, hd, hp⟩ := exists_of_mem_phis hv
    exact ⟨hm, (isPhi_iff hd).mpr hp⟩
  case mpr =>
    rintro ⟨hm, hp⟩
    obtain ⟨d, hd, hp⟩ := (Option.any_eq_true ..).mp hp
    refine List.mem_filterMap.mpr ⟨(v, d), ?_, if_pos hp⟩
    rw [instructions_eq]
    exact List.mem_filterMap.mpr ⟨v, hm, by rw [hd]; rfl⟩

theorem checkPhi_eq_ok_iff : f.checkPhi b incoming = .ok () ↔ f.PhiSound b incoming := by
  have hsame : ((incoming.map Prod.fst).all (f.predecessors b).contains &&
      (f.predecessors b).all (incoming.map Prod.fst).contains) = true ↔
      ∀ p, p ∈ incoming.map Prod.fst ↔ p ∈ f.layout ∧ b ∈ f.successors p := by
    simp only [Bool.and_eq_true, List.all_eq_true, List.contains_iff_mem, ← mem_predecessors_iff]
    exact ⟨fun h p => ⟨h.left p, h.right p⟩, fun h => ⟨fun p => (h p).mp, fun p => (h p).mpr⟩⟩
  rw [checkPhi]
  split
  case isTrue hn => exact iff_of_false (by simp) fun h => hn h.nodup
  case isFalse hn =>
    rw [not_not] at hn
    split
    case isTrue hm =>
      refine iff_of_false (by simp) fun h => ?_
      rw [hsame.mpr h.mem_iff] at hm
      cases hm
    case isFalse hm =>
      rw [Bool.not_eq_true, Bool.not_eq_false'] at hm
      exact ⟨fun _ => ⟨hn, hsame.mp hm⟩, fun _ => rfl⟩

theorem operandsAgree_eq_ok_iff : f.operandsAgree type lhs rhs = .ok true ↔
    f.typeOf lhs = .ok type ∧ f.typeOf rhs = .ok type := by
  simp only [operandsAgree, bind, Except.bind, pure, Except.pure]
  cases hl : f.typeOf lhs
  case error => simp
  case ok left =>
    by_cases he : left = type
    case neg => simp [he]
    case pos => cases f.typeOf rhs <;> simp [he]

-- What the check asks of a definition that is not the last of its block.
structure Admits (f : Function) (b : BlockId) (d : ValueDef) : Prop where
  terminator : d.op.isTerminator = false
  phi : ∀ {incoming}, d.op = .phi incoming → f.PhiSound b incoming
  binary : ∀ {op lhs rhs}, d.op = .binary op lhs rhs →
    f.typeOf lhs = .ok d.type ∧ f.typeOf rhs = .ok d.type

-- Phis come first, and there are none if the first ones are over.
def PhisFirst (inPhis : Bool) (defs : List ValueDef) : Prop :=
  defs.Pairwise (fun d e => e.op.isPhi = true → d.op.isPhi = true) ∧
    (inPhis = false → ∀ d ∈ defs, d.op.isPhi = false)

theorem phisFirst_cons_of_phi (hp : d.op.isPhi = true) :
    PhisFirst inPhis (d :: defs) ↔ inPhis = true ∧ PhisFirst true defs := by
  cases inPhis <;> simp [PhisFirst, hp]

theorem phisFirst_cons_of_not_phi (hp : d.op.isPhi = false) :
    PhisFirst inPhis (d :: defs) ↔ PhisFirst false defs := by
  cases inPhis <;> simp [PhisFirst, hp, and_comm]

theorem checkBody_eq_ok_iff :
    f.checkBody b inPhis defs = .ok () ↔ (∀ d ∈ defs, f.Admits b d) ∧ PhisFirst inPhis defs := by
  induction defs generalizing inPhis
  case nil => simp [checkBody, PhisFirst]
  case cons d defs hi =>
    rw [checkBody, List.forall_mem_cons]
    split
    case isTrue ht =>
      refine iff_of_false (by simp) fun h => ?_
      rw [h.left.left.terminator] at ht
      cases ht
    case isFalse ht =>
      rw [Bool.not_eq_true] at ht
      split
      case h_1 incoming ho =>
        have hp : d.op.isPhi = true := by rw [ho]; rfl
        have ha : f.Admits b d ↔ f.checkPhi b incoming = .ok () := by
          rw [checkPhi_eq_ok_iff]
          exact ⟨fun h => h.phi ho, fun h => ⟨ht, by simpa [ho] using h, by simp [ho]⟩⟩
        rw [phisFirst_cons_of_phi hp, ha]
        cases inPhis
        case false => simp
        case true => cases f.checkPhi b incoming <;> simp [hi]
      case h_2 op lhs rhs ho =>
        have hp : d.op.isPhi = false := by rw [ho]; rfl
        have ha : f.Admits b d ↔ f.operandsAgree d.type lhs rhs = .ok true := by
          rw [operandsAgree_eq_ok_iff]
          refine ⟨fun h => h.binary ho, fun h => ⟨ht, by simp [ho], fun he => ?_⟩⟩
          cases ho.symm.trans he
          exact h
        rw [phisFirst_cons_of_not_phi hp, ha]
        cases f.operandsAgree d.type lhs rhs
        case error => simp [bind, Except.bind]
        case ok agree => cases agree <;> simp [bind, Except.bind, hi]
      case h_3 hphi hbinary =>
        have hp : d.op.isPhi = false := by
          by_contra hc
          obtain ⟨incoming, ho⟩ := Op.eq_phi_of_isPhi (Bool.not_eq_false _ ▸ hc)
          exact hphi incoming ho
        have ha : f.Admits b d :=
          ⟨ht, fun ho => absurd ho (hphi _), fun ho => absurd ho (hbinary _ _ _)⟩
        rw [phisFirst_cons_of_not_phi hp, hi]
        simp [ha]

theorem BlockSound.isClosed (h : f.BlockSound b) : f.isClosed b = true := by
  obtain ⟨body, last, hi, ht, -⟩ := h.closed
  obtain ⟨d, hd, ht⟩ := (Option.any_eq_true ..).mp ht
  have hlast : (f.insts b).getLast? = some last := by rw [hi, List.getLast?_concat]
  rw [Function.isClosed, terminator?_eq_some_iff.mpr ⟨last, d, hlast, hd, rfl, ht⟩]
  rfl

theorem forM_eq_ok_iff {α ε : Type} {l : List α} {check : α → Except ε Unit} :
    l.forM check = .ok () ↔ ∀ a ∈ l, check a = .ok () := by
  refine ⟨fun h => ?_, forM_eq_ok⟩
  induction l
  case nil => simp
  case cons a l hi =>
    rw [List.forM_eq_forM, List.forM_cons] at h
    cases ha : check a <;> rw [ha] at h
    case error => cases h
    case ok => exact List.forall_mem_cons.mpr ⟨ha, hi h⟩

theorem definitions_of_insts {body : List ValueId} {last : ValueId}
    (hi : f.insts b = body ++ [last]) (hd : f.value? last = some d) :
    (f.instructions b).map Prod.snd = body.filterMap f.value? ++ [d] := by
  rw [definitions_eq, hi, List.filterMap_append, List.filterMap_cons_some hd, List.filterMap_nil]

-- What a faultless block is to one that goes through it from front to back.
theorem blockSound_iff {body : List ValueId} {last : ValueId} (hl : f.Listed)
    (hi : f.insts b = body ++ [last]) (hd : f.value? last = some d) :
    f.BlockSound b ↔ f.Reaches b ∧ (f.entry = some b → f.phis b = []) ∧
      d.op.isTerminator = true ∧ (∀ d ∈ body.filterMap f.value?, f.Admits b d) ∧
      PhisFirst true (body.filterMap f.value?) := by
  have hphis : f.phis b = [] ↔ ∀ v ∈ f.insts b, ¬f.IsPhi v := by
    simp [List.eq_nil_iff_forall_not_mem, mem_phis_iff]
  rw [hphis, List.forall_mem_filterMap]
  constructor
  case mp =>
    intro h
    obtain ⟨body', last', hi', hlast, hbody⟩ := h.closed
    obtain ⟨rfl, hone⟩ := List.append_inj' (hi.symm.trans hi') rfl
    cases hone
    have hsub : body ⊆ f.insts b := hi ▸ List.subset_append_left ..
    refine ⟨h.reached, h.entry, (isTerminator_iff hd).mp hlast, fun v hv d hd => ?_, ?_, by simp⟩
    · exact {
        terminator := by simpa [isTerminator_iff hd] using hbody v hv
        phi := h.phi v (hsub hv) d _ hd
        binary := h.binary v (hsub hv) d _ _ _ hd }
    · have hfirst := h.phis_first
      rw [hi, List.pairwise_append] at hfirst
      refine List.pairwise_filterMap.mpr (hfirst.left.imp fun huv d hd e he => ?_)
      rwa [isPhi_iff hd, isPhi_iff he] at huv
  case mpr =>
    rintro ⟨hr, he, ht, ha, hfirst, -⟩
    have hnot : ¬f.IsPhi last := by
      rw [isPhi_iff hd]
      cases hop : d.op <;> simp_all [Op.isTerminator, Op.isPhi]
    have hmem {v d'} (hv : v ∈ f.insts b) (hd' : f.value? v = some d')
        (hn : d'.op.isTerminator = false) : f.Admits b d' := by
      rw [hi, List.mem_append, List.mem_singleton] at hv
      rcases hv with hv | rfl
      · exact ha v hv d' hd'
      · cases hd.symm.trans hd'
        rw [ht] at hn
        cases hn
    exact {
      reached := hr
      entry := he
      closed := by
        refine ⟨body, last, hi, (isTerminator_iff hd).mpr ht, ?_⟩
        intro v hv ht
        obtain ⟨d, hd, ht⟩ := (Option.any_eq_true ..).mp ht
        rw [(ha v hv d hd).terminator] at ht
        cases ht
      phis_first := by
        rw [hi, List.pairwise_append]
        refine ⟨?_, List.pairwise_singleton .., fun u _ v hv hp => ?_⟩
        · refine (List.pairwise_filterMap.mp hfirst).imp_of_mem fun {u v} hu _ huv hp => ?_
          obtain ⟨e, hv, hpe⟩ := (Option.any_eq_true ..).mp hp
          obtain ⟨d, hu, -⟩ := hl (hi ▸ List.mem_append_left _ hu)
          exact (isPhi_iff hu).mpr (huv d hu e hv hpe)
        · rw [List.mem_singleton.mp hv] at hp
          exact absurd hp hnot
      phi := fun v hv d' _ hd' ho => (hmem hv hd' (by rw [ho]; rfl)).phi ho
      binary := fun v hv d' _ _ _ hd' ho => (hmem hv hd' (by rw [ho]; rfl)).binary ho }

theorem checkBlock_eq_ok_iff (hl : f.Listed) (he : f.entry = some e)
    (hlive : b ∈ live ↔ f.Reaches b) : f.checkBlock e live b = .ok () ↔ f.BlockSound b := by
  simp only [checkBlock]
  split
  case isTrue hn =>
    refine iff_of_false (by simp) fun h => ?_
    simp [hlive.mpr h.reached] at hn
  case isFalse hr =>
    replace hr : f.Reaches b := hlive.mp (by simpa using hr)
    split
    case isTrue hp =>
      refine iff_of_false (by simp) fun h => ?_
      obtain ⟨v, hv⟩ := List.exists_mem_of_ne_nil _ hp.right
      obtain ⟨hm, hphi⟩ := mem_phis_iff.mp hv
      exact h.entry (hp.left ▸ he) v hm hphi
    case isFalse hp =>
      have hp : f.entry = some b → f.phis b = [] := by
        intro heb
        by_contra hne
        exact hp ⟨Option.some.inj (heb.symm.trans he), hne⟩
      rcases List.eq_nil_or_concat (f.insts b) with hi | ⟨body, last, hi⟩
      case inl =>
        have hnone : ((f.instructions b).map Prod.snd).getLast? = none := by
          rw [definitions_eq, hi]
          rfl
        rw [hnone]
        refine iff_of_false (by simp) fun h => ?_
        obtain ⟨body, last, hc, -⟩ := h.closed
        simp [hi] at hc
      case inr =>
        rw [List.concat_eq_append] at hi
        obtain ⟨d, hd, -⟩ := hl (hi ▸ List.mem_append_right _ (List.mem_singleton_self last))
        rw [definitions_of_insts hi hd, List.getLast?_concat, List.dropLast_concat,
          blockSound_iff hl hi hd, ← checkBody_eq_ok_iff, and_iff_right hr, and_iff_right hp]
        cases ht : d.op.isTerminator <;> simp [ht]

theorem checkEdges_eq_ok_iff : f.checkEdges = .ok () ↔
    ∀ p ∈ f.reachable, ∀ b ∈ f.successors p, b.index < f.blocks.size := by
  have hnone : f.danglingEdge? = none ↔
      ∀ p ∈ f.reachable, ∀ b ∈ f.successors p, b.index < f.blocks.size := by
    simp only [danglingEdge?, List.find?_eq_none, List.mem_flatMap, hasBlock]
    simp only [Bool.not_eq_true', decide_eq_false_iff_not, not_not]
    exact ⟨fun h p hp b hb => h b ⟨p, hp, hb⟩, fun h b hm => by
      obtain ⟨p, hp, hb⟩ := hm
      exact h p hp b hb⟩
  rw [← hnone, checkEdges]
  cases f.danglingEdge? <;> simp

namespace Consistent

variable (h : f.Consistent)
include h

theorem mem_reachable_iff (hc : f.checkEdges = .ok ()) : b ∈ f.reachable ↔ f.Reaches b := by
  refine ⟨reaches_of_mem_reachable, fun hr => ?_⟩
  induction hr
  case entry he => exact mem_reachable_of_entry he (h.entry_created he)
  case step hp hb hi =>
    exact mem_reachable_of_edge hi hb (checkEdges_eq_ok_iff.mp hc _ hi _ hb)

-- Blocks that do not exist are found out along the paths only.
theorem verify_eq_ok_iff : f.verify = .ok () ↔ f.entry.isSome ∧
    (∀ p, f.Reaches p → ∀ b ∈ f.successors p, b.index < f.blocks.size) ∧
      ∀ b ∈ f.layout, f.BlockSound b := by
  unfold verify
  cases he : f.entry
  case none => exact iff_of_false (by simp [throw, throwThe, MonadExceptOf.throw]) (by simp)
  case some e =>
    have hedges : f.checkEdges = .ok () ↔
        ∀ p, f.Reaches p → ∀ b ∈ f.successors p, b.index < f.blocks.size := by
      constructor
      case mp =>
        intro hc p hp
        exact checkEdges_eq_ok_iff.mp hc p ((h.mem_reachable_iff hc).mpr hp)
      case mpr =>
        intro hall
        exact checkEdges_eq_ok_iff.mpr fun p hp => hall p (reaches_of_mem_reachable hp)
    rw [← hedges]
    cases hc : f.checkEdges
    case error => simp [bind, Except.bind]
    case ok =>
      simp only [bind, Except.bind, Option.isSome_some, true_and]
      rw [forM_eq_ok_iff]
      exact forall₂_congr fun b _ => checkBlock_eq_ok_iff h.listed he (h.mem_reachable_iff hc)

end Consistent

-- A block that is reached can be checked by itself.
theorem blockSound_of_checkBlock (hl : f.Listed) (he : f.entry = some e) (hr : f.Reaches b)
    (hc : f.checkBlock e [b] b = .ok ()) : f.BlockSound b :=
  (checkBlock_eq_ok_iff hl he (iff_of_true (List.mem_singleton_self b) hr)).mp hc

-- Only blocks that exist can go anywhere.
theorem forall_successors_of_created {P : BlockId → Prop}
    (h : ∀ p ∈ f.created, ∀ b ∈ f.successors p, P b) : ∀ p, ∀ b ∈ f.successors p, P b :=
  fun p b hb => h p (mem_created_iff.mpr (created_of_mem_successors hb)) b hb

-- The check passes a function just if it has an entry and every block of its layout is faultless.
theorem verify_eq_ok_iff_blockSound (h : f.Built fun _ _ => True)
    (hr : ∀ p, ∀ b ∈ f.successors p, b.index < f.blocks.size) :
    f.verify = .ok () ↔ f.entry.isSome ∧ ∀ b ∈ f.layout, f.BlockSound b := by
  rw [h.consistent.verify_eq_ok_iff]
  exact and_congr_right fun _ => and_iff_right fun p _ => hr p

-- A block that goes to itself on both ways of a branch.
def spinning : Function :=
  ((empty "spin" none).addBlock "entry").2.addBlock "loop" |>.2
    |>.emit ⟨0⟩ "x" (some .i32) (.const (.int 0))
    |>.emit ⟨0⟩ "" none (.jump ⟨1⟩)
    |>.emit ⟨1⟩ "p" (some .i32) (.phi [(⟨1⟩, ⟨3⟩), (⟨0⟩, ⟨0⟩)])
    |>.emit ⟨1⟩ "s" (some .i32) (.binary .add ⟨2⟩ ⟨0⟩)
    |>.emit ⟨1⟩ "" none (.branch ⟨2⟩ .eq ⟨3⟩ ⟨1⟩ ⟨1⟩)

theorem spinning_built : spinning.Built fun _ _ => True := by
  refine .emit (.emit (.emit (.emit (.emit (.addBlock (.addBlock (.empty ..) _) _)
    ?_ ?_ rfl) ?_ ?_ rfl) ?_ ?_ rfl) ?_ ?_ rfl) ?_ ?_ rfl
  all_goals decide

theorem verify_eq_ok_iff_blockSound_spinning :
    spinning.Built (fun _ _ => True) ∧
      (∀ p, ∀ b ∈ spinning.successors p, b.index < spinning.blocks.size) ∧
      (∀ b ∈ spinning.layout, spinning.BlockSound b) ∧ spinning.verify = .ok () := by
  have hrange : ∀ p, ∀ b ∈ spinning.successors p, b.index < spinning.blocks.size :=
    forall_successors_of_created (by decide)
  have hentry : spinning.Reaches ⟨0⟩ := .entry rfl
  have hloop : spinning.Reaches ⟨1⟩ := hentry.step (by decide)
  have hlisted := spinning_built.consistent.listed
  have hsound : ∀ b ∈ spinning.layout, spinning.BlockSound b :=
    List.forall_mem_cons.mpr ⟨blockSound_of_checkBlock hlisted rfl hentry rfl,
      List.forall_mem_singleton.mpr (blockSound_of_checkBlock hlisted rfl hloop rfl)⟩
  exact ⟨spinning_built, hrange, hsound,
    (verify_eq_ok_iff_blockSound spinning_built hrange).mpr ⟨rfl, hsound⟩⟩

-- Paths leave the layout of a function that passed the check just if an edge of a block in the
-- layout does. None does if only blocks of the layout were ever named as the end of an edge.
theorem reaches_confined_iff (h : f.Built fun _ _ => True) (hv : f.verify = .ok ()) :
    ((∀ b, f.Reaches b → b ∈ f.layout ∧ f.isClosed b = true) ↔ f.Contained) ∧
      (f.Built (fun g b => b ∈ g.layout) →
        ∀ b, f.Reaches b → b ∈ f.layout ∧ f.isClosed b = true) := by
  have hsound := (h.consistent.verify_eq_ok_iff.mp hv).right.right
  have hin : f.Contained → ∀ b, f.Reaches b → b ∈ f.layout ∧ f.isClosed b = true := by
    intro hc b hb
    have hm : b ∈ f.layout := by
      induction hb
      case entry he => exact h.consistent.entry he
      case step hr hs hi => exact hc _ hi _ hs
    exact ⟨hm, (hsound b hm).isClosed⟩
  refine ⟨⟨fun hall p hp b hb => ?_, hin⟩, fun hb => hin hb.contained⟩
  exact (hall b ((hsound p hp).reached.step hb)).left

-- An open entry, and a block that was pruned.
def stump : Function :=
  { (((empty "f" none).addBlock "entry").2.addBlock "dead").2 with layout := [⟨0⟩] }

theorem stump_built {names : Function → BlockId → Prop} : stump.Built names := by
  have hr : (((empty "f" none).addBlock "entry").2.addBlock "dead").2.reachable = [⟨0⟩] := by
    simp [reachable, reachable.go, created, empty, addBlock, successors, terminator?, block?]
  have hp : (((empty "f" none).addBlock "entry").2.addBlock "dead").2.prune.2 = stump := by
    rw [prune, hr, if_neg (by decide)]
    simp [stump, empty, addBlock]
  exact hp ▸ .prune (.addBlock (.addBlock (.empty ..) _) _)

-- The entry leads on to a block that was added after the pruning.
theorem reaches_confined_iff_regrown :
    let f := ((stump.addBlock "next").2.emit ⟨0⟩ "" none (.jump ⟨2⟩)).emit ⟨2⟩ "" none .exit
    f.Built (fun g b => b ∈ g.layout) ∧ f.verify = .ok () ∧ f.Reaches ⟨2⟩ ∧
      ∀ b, f.Reaches b → b ∈ f.layout ∧ f.isClosed b = true := by
  intro f
  have hb {names : Function → BlockId → Prop} (hn : names (stump.addBlock "next").2 ⟨2⟩) :
      f.Built names :=
    .emit (.emit (.addBlock stump_built _) (by simpa [Op.successors] using hn) (by decide) rfl)
      (by simp [Op.successors]) (by decide) rfl
  have hl : f.Built fun g b => b ∈ g.layout := hb (by decide)
  have hentry : f.Reaches ⟨0⟩ := .entry rfl
  have hnext : f.Reaches ⟨2⟩ := hentry.step (by decide)
  have hv : f.verify = .ok () := by
    refine hl.consistent.verify_eq_ok_iff.mpr
      ⟨rfl, fun p _ => forall_successors_of_created (by decide) p, ?_⟩
    exact List.forall_mem_cons.mpr ⟨blockSound_of_checkBlock hl.consistent.listed rfl hentry rfl,
      List.forall_mem_singleton.mpr (blockSound_of_checkBlock hl.consistent.listed rfl hnext rfl)⟩
  exact ⟨hl, hv, hnext, (reaches_confined_iff (hb trivial) hv).right hl⟩

-- The entry leads back to the pruned block.
theorem not_confined_pruned : ∃ (f : Function) (b : BlockId),
    f.Built (fun g b => b.index < g.blocks.size) ∧ f.verify = .ok () ∧ f.Reaches b ∧
      b ∉ f.layout ∧ f.isClosed b = false := by
  let f := stump.emit ⟨0⟩ "" none (.jump ⟨1⟩)
  have hb : f.Built fun g b => b.index < g.blocks.size :=
    .emit stump_built (by decide) (by decide) rfl
  have hentry : f.Reaches ⟨0⟩ := .entry rfl
  have hv : f.verify = .ok () := by
    refine hb.consistent.verify_eq_ok_iff.mpr
      ⟨rfl, fun p _ => forall_successors_of_created (by decide) p, ?_⟩
    exact List.forall_mem_singleton.mpr
      (blockSound_of_checkBlock hb.consistent.listed rfl hentry rfl)
  exact ⟨f, ⟨1⟩, hb, hv, hentry.step (by decide), by decide, rfl⟩

end StackCompiler.Ssa.Function
