import StackCompiler.Ssa.Verifier
import StackCompiler.Proofs.Ssa.Scope

-- Finished functions: every block is closed, pruning changes the layout only, and the check finds
-- no fault.

namespace StackCompiler.Ssa

theorem Op.eq_phi_of_isPhi {op : Op} (h : op.isPhi = true) : ∃ incoming, op = .phi incoming := by
  cases op <;> simp [isPhi] at h
  exact ⟨_, rfl⟩

namespace Function

variable {f g : Function} {dom : Scope} {b p e : BlockId} {v : ValueId} {d : ValueDef}

-- A function with nothing left to add.
structure Complete (f : Function) (dom : Scope) : Prop where
  draft : f.Draft
  scope : f.Scoped dom
  closed : ∀ b, ¬f.Open b

-- The function without its unreachable blocks.
def trimmed (f : Function) : Function :=
  { f with layout := f.layout.filter f.reachable.contains }

theorem mem_trimmed_layout_iff (h : f.Draft) : b ∈ f.trimmed.layout ↔ f.Reaches b := by
  simp only [trimmed, List.mem_filter, List.contains_iff_mem, mem_reachable_iff h.wf h.linked]
  refine and_iff_right_of_imp fun hb => ?_
  exact h.wf.mem_layout_iff.mpr (hb.created h.wf h.linked)

-- No phi has anything to lose.
theorem filterIncoming_eq (h : f.Draft) (hd : f.value? v = some d) :
    (if d.block.any (f.layout.filter f.reachable.contains).contains
      then { d with op := d.op.filterIncoming f.reachable.contains } else d) = d := by
  split
  case isFalse => rfl
  case isTrue hb =>
    have ⟨b, hb, _⟩ := Option.any_eq_true _ _ |>.mp hb
    cases hop : d.op
    case phi incoming =>
      have hm := h.phis (h.wf.lists hd hb) hd hop
      have hf : incoming.filter (fun i => f.reachable.contains i.1) = incoming := by
        refine List.filter_eq_self.mpr fun i hi => ?_
        rw [List.contains_iff_mem, mem_reachable_iff h.wf h.linked]
        exact hm.reached i.1 (List.mem_map_of_mem hi)
      rw [Op.filterIncoming, hf, ← hop]
    all_goals
      rw [Op.filterIncoming, ← hop]
      simp

theorem prune_eq_trimmed (h : f.Draft) : f.prune.2 = f.trimmed := by
  simp only [prune, trimmed]
  split
  case isTrue hr =>
    have hl : f.layout.filter f.reachable.contains = f.layout :=
      List.filter_sublist.eq_of_length_le (Nat.le_of_sub_eq_zero hr)
    simp only [hl]
  case isFalse =>
    have hv : f.values.map (fun d =>
        if d.block.any (f.layout.filter f.reachable.contains).contains
          then { d with op := d.op.filterIncoming f.reachable.contains } else d) = f.values := by
      refine Array.ext (by simp) fun n hn hn' => ?_
      rw [Array.getElem_map]
      exact filterIncoming_eq (v := ⟨n⟩) h (Array.getElem?_eq_getElem hn')
    rw [hv]

-- The layout does not matter for reachability.
theorem reachable.go_congr (hs : ∀ b, g.successors b = f.successors b)
    (unseen pending : List BlockId) :
    reachable.go g unseen pending = reachable.go f unseen pending := by
  fun_induction reachable.go f unseen pending
  case case1 => simp [reachable.go]
  case case2 hb hi => rw [reachable.go, if_pos hb, hs, hi]
  case case3 hb hi => rw [reachable.go, if_neg hb, hi]

theorem trimmed_reachable : f.trimmed.reachable = f.reachable := by
  have hs (b) : f.trimmed.successors b = f.successors b := rfl
  exact reachable.go_congr hs ..

theorem instructions_eq : f.instructions b =
    (f.insts b).filterMap fun v => (f.value? v).map fun d => (v, d) := by
  unfold instructions insts
  cases f.block? b <;> rfl

theorem exists_of_mem_phis (hv : v ∈ f.phis b) :
    ∃ d, v ∈ f.insts b ∧ f.value? v = some d ∧ d.op.isPhi = true := by
  simp only [phis, instructions_eq, List.mem_filterMap] at hv
  have ⟨(w, d), ⟨w', hw, hd⟩, hp⟩ := hv
  have ⟨d', hd', he⟩ := Option.map_eq_some_iff.mp hd
  cases he
  split at hp
  case isFalse => cases hp
  case isTrue hi =>
    cases hp
    exact ⟨d, hw, hd', hi⟩

theorem definitions_eq : (f.instructions b).map Prod.snd = (f.insts b).filterMap f.value? := by
  rw [instructions_eq, List.map_filterMap]
  refine List.filterMap_congr fun v _ => ?_
  cases f.value? v <;> rfl

theorem forM_eq_ok {α ε : Type} {l : List α} {check : α → Except ε Unit}
    (h : ∀ a ∈ l, check a = .ok ()) : l.forM check = .ok () := by
  induction l
  case nil => rfl
  case cons a l hi =>
    rw [List.forM_eq_forM, List.forM_cons, h a (by simp)]
    exact hi fun a ha => h a (by simp [ha])

section Check

variable (h : f.Complete dom)
include h

theorem checkEdges_eq_ok : f.trimmed.checkEdges = .ok () := by
  have hn : f.trimmed.danglingEdge? = none := by
    rw [danglingEdge?, trimmed_reachable, List.find?_eq_none]
    intro b hb
    have ⟨p, _, hp⟩ := List.mem_flatMap.mp hb
    have hc : b.index < f.trimmed.blocks.size := h.draft.linked.created hp
    simp [hasBlock, hc]
  rw [checkEdges, hn]

theorem checkPhi_eq_ok {incoming : List (BlockId × ValueId)} (hm : f.Merges b v incoming) :
    f.trimmed.checkPhi b incoming = .ok () := by
  have hp (p) : p ∈ f.trimmed.predecessors b ↔ p ∈ incoming.map Prod.fst := by
    rw [mem_predecessors_iff, mem_trimmed_layout_iff h.draft, hm.mem_iff]
    exact and_iff_right_of_imp fun hb => hm.reached p ((hm.mem_iff p).mpr hb)
  have hs : ((incoming.map Prod.fst).all (f.trimmed.predecessors b).contains &&
      (f.trimmed.predecessors b).all (incoming.map Prod.fst).contains) = true := by
    simp only [Bool.and_eq_true, List.all_eq_true, List.contains_iff_mem]
    exact ⟨fun p => (hp p).mpr, fun p => (hp p).mp⟩
  simp only [checkPhi]
  rw [if_neg (not_not.mpr hm.nodup), hs, if_neg (by simp)]

theorem operandsAgree_eq_ok {op : BinaryOp} {lhs rhs : ValueId} (hd : f.value? v = some d)
    (hb : d.block = some b) (ho : d.op = .binary op lhs rhs) :
    f.trimmed.operandsAgree d.type lhs rhs = .ok true := by
  have ⟨t, ht, ⟨dl, hl, htl, _⟩, ⟨dr, hr, htr, _⟩⟩ := ho ▸ h.scope.fits hd hb
  have hl : f.trimmed.value? lhs = some dl := hl
  have hr : f.trimmed.value? rhs = some dr := hr
  simp [operandsAgree, typeOf, hl, hr, htl, htr, ht, bind, Except.bind, pure, Except.pure]

-- A definition that the check passes, whether or not a phi may stand there.
structure Passes (f : Function) (d : ValueDef) : Prop where
  terminator : d.op.isTerminator = false
  phi : d.op.isPhi = false
  binary : ∀ {op lhs rhs}, d.op = .binary op lhs rhs →
    f.operandsAgree d.type lhs rhs = .ok true

omit h in
theorem checkBody_eq_ok {defs : List ValueDef} (inPhis : Bool) (hd : ∀ d ∈ defs, g.Passes d) :
    g.checkBody b inPhis defs = .ok () := by
  induction defs generalizing inPhis
  case nil => rfl
  case cons d defs hi =>
    have hp := hd d (by simp)
    have hi := hi false fun d hm => hd d (by simp [hm])
    unfold checkBody
    rw [if_neg (by simp [hp.terminator])]
    split
    case h_1 ho => simpa [ho, Op.isPhi] using hp.phi
    case h_2 ho =>
      rw [hp.binary ho]
      exact hi
    case h_3 => exact hi

theorem passes (hv : v ∈ (f.insts b).dropLast) (hd : f.value? v = some d)
    (hp : d.op.isPhi = false) : f.trimmed.Passes d where
  terminator := h.draft.wf.inner hv hd
  phi := hp
  binary ho := by
    have ⟨d', hd', hb⟩ := h.draft.wf.listed ((List.dropLast_prefix _).subset hv)
    cases hd.symm.trans hd'
    exact operandsAgree_eq_ok h hd hb ho

-- A phi can only be the first instruction.
theorem checkBody_dropLast_eq_ok :
    f.trimmed.checkBody b true ((f.insts b).dropLast.filterMap f.value?) = .ok () := by
  have hpass {v d} : v ∈ (f.insts b).dropLast → _ := passes h (v := v) (d := d)
  have hsub : (f.insts b).dropLast <+: f.insts b := List.dropLast_prefix _
  cases hi : (f.insts b).dropLast
  case nil => rfl
  case cons v rest =>
    rw [hi] at hpass hsub
    have ⟨d, hd⟩ := h.draft.wf.value?_of_mem_insts (hsub.subset (List.mem_cons_self))
    have hnd := List.nodup_cons.mp (hsub.sublist.nodup (h.draft.wf.nodup_insts b))
    have hrest : ∀ d ∈ rest.filterMap f.value?, f.trimmed.Passes d := by
      intro d' hd'
      have ⟨v', hv', hd'⟩ := List.mem_filterMap.mp hd'
      refine hpass (by simp [hv']) hd' <| Bool.eq_false_iff.mpr fun hp => ?_
      have ⟨incoming, ho⟩ := Op.eq_phi_of_isPhi hp
      have hf := (h.draft.phis (hsub.subset (by simp [hv'])) hd' ho).first
      have ⟨tail, ht⟩ := hsub
      rw [← ht] at hf
      cases hf
      exact absurd hv' hnd.1
    rw [List.filterMap_cons_some hd]
    cases hp : d.op.isPhi
    case false =>
      exact checkBody_eq_ok true (List.forall_mem_cons.mpr ⟨hpass (by simp) hd hp, hrest⟩)
    case true =>
      have ⟨incoming, ho⟩ := Op.eq_phi_of_isPhi hp
      have hm := h.draft.phis (hsub.subset List.mem_cons_self) hd ho
      unfold checkBody
      rw [if_neg (by simp [ho, Op.isTerminator])]
      simp only [ho, checkPhi_eq_ok h hm]
      exact checkBody_eq_ok true hrest

theorem checkBlock_eq_ok (he : f.entry = some e) (hb : f.Reaches b) :
    f.trimmed.checkBlock e f.reachable b = .ok () := by
  have ⟨op, hop⟩ : ∃ op, f.terminator? b = some op := by
    refine Option.ne_none_iff_exists'.mp fun hn => h.closed b ⟨?_, hn⟩
    exact hb.created h.draft.wf h.draft.linked
  have ⟨last, d, hlast, hd, ho, ht⟩ := terminator?_eq_some_iff.mp hop
  have hdefs : (f.trimmed.instructions b).map Prod.snd =
      (f.insts b).dropLast.filterMap f.value? ++ [d] := by
    have hi : f.trimmed.insts b = (f.insts b).dropLast ++ [last] :=
      (List.dropLast_append_getLast? last hlast).symm
    have hd : f.trimmed.value? last = some d := hd
    rw [definitions_eq, hi, List.filterMap_append, List.filterMap_cons_some hd, List.filterMap_nil]
    rfl
  simp only [checkBlock, hdefs]
  rw [if_neg ?live, if_neg ?entry]
  case live => simpa using (mem_reachable_iff h.draft.wf h.draft.linked).mpr hb
  case entry =>
    rintro ⟨rfl, hne⟩
    have ⟨v, hv⟩ := List.exists_mem_of_ne_nil _ hne
    have ⟨d, hv, hd, hp⟩ := exists_of_mem_phis hv
    have ⟨incoming, ho⟩ := Op.eq_phi_of_isPhi hp
    exact (h.draft.phis hv hd ho).not_entry he
  simp [ho, ht, checkBody_dropLast_eq_ok h]

theorem verify_eq_ok : f.trimmed.verify = .ok () := by
  have ⟨e, he⟩ := Option.isSome_iff_exists.mp h.draft.entry
  have he' : f.trimmed.entry = some e := he
  unfold verify
  rw [he', trimmed_reachable, checkEdges_eq_ok h]
  refine forM_eq_ok fun b hb => checkBlock_eq_ok h he ?_
  exact (mem_trimmed_layout_iff h.draft).mp hb

end Check

end Function

end StackCompiler.Ssa
