import StackCompiler.Proofs.DeadCode.Renaming
import StackCompiler.Proofs.Simulation.Course

-- What an instruction does in dead code, up to the end of the region in which the code is dead:
-- nothing that live code could notice.

namespace StackCompiler

-- How an instruction changes the number of regions that are open, of those that were opened since
-- some point. It may not touch the others.
def Bytecode.Instruction.nest : Instruction → Nat → Option Nat
  | .block _, k | .loop _, k | .if_ _, k => some (k + 1)
  | .end_, k + 1 => some k
  | .else_, k + 1 => some (k + 1)
  | .end_, 0 | .else_, 0 => none
  | _, k => some k

-- The code closes every region that it opens, and no other.
def Bytecode.Balanced (code : List Instruction) : Prop :=
  code.foldlM (fun k i => i.nest k) 0 = some 0
deriving Decidable

namespace Lowering.Direct

open Bytecode (Instruction)
open Ssa (BlockId Function Op Scope ValueId)

variable {cx : Context} {dom dom' : Scope} {calls calls' : List Nat} {s t u : State} {r : Region}
variable {l : List Region} {i : Instruction} {k n : Nat} {code : List Instruction}

namespace State

-- The regions that were opened in live code.
def live (s : State) : List Region :=
  s.regions.filter Region.isLive

-- How many regions were opened in dead code.
def deadDepth (s : State) : Nat :=
  s.regions.countP (!·.isLive)

-- Below this height stand operands of live code only.
def base (s : State) : Nat :=
  (s.live.head?.map Region.height).getD 0

-- The lowering went on from `s` to `t` in dead code.
structure Idles (s t : State) : Prop where
  function : s.function.Spares t.function
  isDead : t.isDead = true
  isEnded : t.isEnded = s.isEnded
  live : t.live = s.live
  below : t.below s.base = s.below s.base

-- The code in `t` is still dead, inside of the same live regions and of `k` dead ones.
structure Lingers (s t : State) (k : Nat) : Prop where
  isDead : t.isDead = true
  isEnded : t.isEnded = s.isEnded
  live : t.live = s.live
  depth : t.deadDepth = k

theorem live_eq (h : s.deadDepth = 0) : s.live = s.regions := by
  refine List.filter_eq_self.mpr fun r hr => ?_
  simpa using List.countP_eq_zero.mp h r hr

theorem Idles.refl (hd : s.isDead = true) : s.Idles s :=
  ⟨.refl _, hd, rfl, rfl, rfl⟩

theorem Idles.trans (h₁ : s.Idles t) (h₂ : t.Idles u) : s.Idles u where
  function := h₁.function.trans h₂.function
  isDead := h₂.isDead
  isEnded := h₂.isEnded.trans h₁.isEnded
  live := h₂.live.trans h₁.live
  below := by
    have hb : t.base = s.base := by rw [base, base, h₁.live]
    rw [← h₁.below, ← hb, h₂.below]

theorem Idles.of_journal {j : Journal} (h : ({ s with journal := j } : State).Idles t) : s.Idles t :=
  ⟨h.function, h.isDead, h.isEnded, h.live, h.below⟩

section Valid

variable (hv : s.Valid cx dom calls)
include hv

theorem Valid.deadDepth_eq_zero (hd : s.isDead = false) : s.deadDepth = 0 :=
  List.countP_eq_zero.mpr fun r hr => by simp [(hv.within r hr).live hd]

-- The regions that were opened in dead code are the innermost ones.
theorem Valid.exists_innermost (hk : s.deadDepth = k + 1) :
    ∃ r outer, s.regions = r :: outer ∧ r.isLive = false := by
  cases hr : s.regions
  case nil => simp [deadDepth, hr] at hk
  case cons r outer =>
    refine ⟨r, outer, rfl, ?_⟩
    have hn := List.pairwise_cons.mp (hr ▸ hv.nested)
    cases hl : r.isLive
    case false => rfl
    case true =>
      have hz : s.deadDepth = 0 := List.countP_eq_zero.mpr fun o ho => by
        rcases List.mem_cons.mp (hr ▸ ho) with rfl | ho
        · simp [hl]
        · simp [(hn.1 o ho).live hl]
      simp [hz] at hk

theorem Valid.base_le_floor : s.base ≤ s.floor := by
  rw [base]
  cases hl : s.live
  case nil => exact Nat.zero_le _
  case cons r rest =>
    have hr : r ∈ s.live := by simp [hl]
    exact hv.height_le_floor (List.mem_filter.mp hr).1

-- Nothing live leads behind a region that was opened in dead code.
theorem Valid.not_reaches_continuation (hr : r ∈ s.regions) (hl : r.isLive = false) :
    ¬s.function.Reaches r.continuation := by
  intro h
  simp [(hv.regions r hr).isLive_of_reaches h] at hl

-- A live block is closed, or waits for what follows a live region.
theorem Valid.closed_or_waits (hd : s.isDead = true) {b : BlockId} (hb : s.function.Reaches b) :
    (∃ op, s.function.terminator? b = some op) ∨ ∃ r ∈ s.live, r.continuation = b := by
  cases ho : s.function.terminator? b
  case some op => exact .inl ⟨op, rfl⟩
  case none =>
    have hc := hb.created hv.draft.wf hv.draft.linked
    rcases (hv.opens b).mp ⟨hc, ho⟩ with rfl | ⟨r, hr, rfl⟩
    · simp [hv.live_iff.mpr hb] at hd
    · refine .inr ⟨r, List.mem_filter.mpr ⟨hr, ?_⟩, rfl⟩
      cases hl : r.isLive
      case true => rfl
      case false => exact absurd hb (hv.not_reaches_continuation hr hl)

-- What dead code can become, as long as no live region is closed.
theorem Valid.spares (ht : t.Valid cx dom' calls') (hd : s.isDead = true)
    (hb : Becomes s.function t.function l) (hl : ∀ r ∈ l, r ∈ s.regions ∧ r.isLive = false)
    (hlive : t.live = s.live) : s.function.Spares t.function := by
  -- The edges of dead regions come from dead blocks.
  have hkept {p op} (hr : s.function.Reaches p) (ho : s.function.terminator? p = some op) :
      t.function.terminator? p = some op := by
    refine hb.terminator ho fun r hm hbr => ?_
    obtain ⟨hrs, hdead⟩ := hl r hm
    obtain ⟨breaks, hk, hp⟩ := hbr
    obtain ⟨_, _, c, _, hc⟩ := (hv.regions r hrs).branched hk
    have hlive := ((hv.regions r hrs).live_iff ((hc p).mpr (.inr hp))).mp hr
    simp [hdead] at hlive
  have hwaits {r} (hr : r ∈ s.live) : r ∈ t.regions :=
    (List.mem_filter.mp (hlive ▸ hr : r ∈ t.live)).1
  have he : t.function.entry = s.function.entry := by rw [ht.draft.entry_eq, hv.draft.entry_eq]
  refine ⟨he, hb.size, fun {b} => ⟨fun h => ?reaches, hb.reaches⟩, fun {v d} hd ha => ?value,
    fun {b} hr => ?insts⟩
  case reaches =>
    induction h
    case entry h => exact .entry (he ▸ h)
    case step p b _ hb hi =>
      rcases hv.closed_or_waits hd hi with ⟨op, ho⟩ | ⟨r, hr, rfl⟩
      · rw [Function.successors_of_terminator? (hkept hi ho)] at hb
        exact .step hi (by rwa [Function.successors_of_terminator? ho])
      · exact absurd hb (ht.isOpen_continuation (hwaits hr)).not_mem_successors
  case value =>
    cases hop : d.op.isTerminator
    case false => exact hb.value hd hop
    case true =>
      obtain ⟨b, hdb, hr⟩ := ha.exists_block hop
      have hv' := hv.draft.wf.lists hd hdb
      have ho := hv.draft.wf.terminator?_of_mem_insts hv' hd hop
      exact Function.value?_of_terminator? hv.draft.wf hb.keeps (hb.closed ho).1 hv' hd hop
        (hkept hr ho)
  case insts =>
    rcases hv.closed_or_waits hd hr with ⟨op, ho⟩ | ⟨r, hm, rfl⟩
    · exact (hb.closed ho).1
    · rw [(ht.regions r (hwaits hm)).empty, (hv.regions r (List.mem_filter.mp hm).1).empty]

end Valid

section Lingers

variable {kind : RegionKind} {op : Op} {result after : Option Result} {outer : List Region}
variable {g : Function}

theorem Advances.lingers (a : s.Advances t) (hd : s.isDead = true) : s.Lingers t s.deadDepth where
  isDead := a.isDead.trans hd
  isEnded := a.isEnded
  live := by rw [State.live, State.live, a.regions]
  depth := by rw [deadDepth, deadDepth, a.regions]

theorem lingers_enter (hd : s.isDead = true) : s.Lingers (s.enter kind op result) (s.deadDepth + 1) :=
  ⟨hd, rfl, by simp [State.live, enter, hd], by simp [deadDepth, enter, hd]⟩

theorem Lingers.trans (h₁ : s.Lingers t k) (h₂ : t.Lingers u n) : s.Lingers u n :=
  ⟨h₂.isDead, h₂.isEnded.trans h₁.isEnded, h₂.live.trans h₁.live, h₂.depth⟩

theorem lingers_turn (hr : s.regions = r :: outer) (hl : r.isLive = false) :
    s.Lingers (s.turn r outer after g) s.deadDepth :=
  ⟨by simp [turn, hl], rfl, by simp [State.live, turn, hr, hl], by simp [deadDepth, turn, hr, hl]⟩

theorem receive_isDead : (s.receive after).isDead = s.isDead := by
  unfold receive
  split <;> try split
  all_goals rfl

theorem receive_isEnded : (s.receive after).isEnded = s.isEnded := by
  unfold receive
  split <;> try split
  all_goals rfl

theorem lingers_resume (hr : s.regions = r :: outer) (hl : r.isLive = false)
    (hk : s.deadDepth = k + 1) : s.Lingers ((s.resume r outer op).receive after) k where
  isDead := by simp [receive_isDead, resume, hl]
  isEnded := receive_isEnded
  live := by simp [State.live, resume, hr, hl]
  depth := by simpa [deadDepth, resume, hr, hl] using hk

end Lingers

end State

theorem step_lingers (hv : s.Valid cx dom calls) (hd : s.isDead = true)
    (hn : i.nest s.deadDepth = some k) : Meets (step cx i) s fun _ t => s.Lingers t k := by
  cases i
  case block =>
    cases hn
    refine (startBlock_meets hv).mono fun _ t h => ?_
    obtain ⟨res, _, rfl⟩ := h
    exact State.lingers_enter hd
  case loop =>
    cases hn
    refine (startLoop_meets hv).mono fun _ t h => ?_
    obtain ⟨res, _, rfl⟩ := h
    exact State.lingers_enter hd
  case if_ =>
    cases hn
    refine (startIf_meets hv).mono fun _ t h => ?_
    obtain ⟨_, _, _, u, res, _, hi, _, _, rfl⟩ := h
    have hu := hi.advances.lingers hd
    exact hu.depth ▸ hu.trans (State.lingers_enter hu.isDead)
  case else_ =>
    cases hk : s.deadDepth <;> rw [hk] at hn <;> cases hn
    case succ =>
      obtain ⟨r, outer, hr, hl⟩ := hv.exists_innermost hk
      refine (startElse_meets hv).mono fun _ t h => ?_
      obtain ⟨_, _, _, _, _, _, hr', _, _, _, rfl⟩ := h
      cases hr.symm.trans hr'
      exact hk ▸ State.lingers_turn hr hl
  case end_ =>
    cases hk : s.deadDepth <;> rw [hk] at hn <;> cases hn
    case succ =>
      obtain ⟨r, outer, hr, hl⟩ := hv.exists_innermost hk
      refine (close_meets hv).mono fun _ t h => ?_
      rcases h with ⟨hr', _⟩ | ⟨_, _, _, _, hr', _, _, rfl⟩ <;> cases hr.symm.trans hr'
      exact State.lingers_resume hr hl hk
  case br =>
    cases hn
    refine (branch_meets hv).mono fun _ t h => ?_
    rcases h with ⟨_, rfl⟩ | ⟨hl, _⟩
    · exact (State.Advances.refl t).lingers hd
    · simp [hd] at hl
  case brIf =>
    cases hn
    refine (branchIf_meets hv).mono fun _ t h => ?_
    obtain ⟨_, _, _, u, _, hi, _, ⟨_, rfl⟩ | ⟨hl, _⟩⟩ := h
    · exact hi.advances.lingers hd
    · simp [hi.advances.isDead.trans hd] at hl
  case return_ =>
    cases hn
    refine (return_meets hv).mono fun _ t h => ?_
    rcases h with ⟨_, rfl⟩ | ⟨hl, _⟩
    · exact (State.Advances.refl t).lingers hd
    · simp [hd] at hl
  all_goals
    cases hn
    exact (step_inside_meets hv trivial).mono fun _ _ h => h.advances.lingers hd

-- An instruction in dead code that closes no live region.
theorem step_idles (hv : s.Valid cx dom calls) (hd : s.isDead = true)
    (hn : i.nest s.deadDepth = some k) :
    Meets (step cx i) s fun _ t => s.Idles t ∧ t.deadDepth = k := by
  refine ((step_lingers hv hd hn).and ((step_meets hv).and (step_nests hv))).mono fun _ t h => ?_
  obtain ⟨hl, ⟨dom', ht⟩, m, new, hm⟩ := h
  refine ⟨⟨hv.spares ht hd hm.becomes (fun r hr => ?_) hl.live, hl.isDead, hl.isEnded, hl.live,
    hm.below _ hv.base_le_floor⟩, hl.depth⟩
  rcases hm.closes with rfl | ⟨rfl, hi⟩
  · simp at hr
  · cases hk : s.deadDepth
    case zero => rcases hi with rfl | rfl <;> simp [hk, Instruction.nest] at hn
    case succ =>
      obtain ⟨o, outer, ho, hdead⟩ := hv.exists_innermost hk
      rw [ho, List.take_succ_cons, List.take_zero, List.mem_singleton] at hr
      subst hr
      exact ⟨by simp [ho], hdead⟩

theorem nest_add (h : i.nest k = some n) (m : Nat) : i.nest (k + m) = some (n + m) := by
  cases i
  case block | loop | if_ =>
    cases h
    exact congrArg some (Nat.add_right_comm ..)
  case else_ | end_ =>
    cases k <;> cases h
    simp only [Nat.add_right_comm _ 1 m, Instruction.nest]
  all_goals
    cases h
    rfl

-- Dead code that closes no region of others.
theorem lowerCode_idles {function : String} {total position : Nat} (hv : s.Valid cx dom calls)
    (hd : s.isDead = true) (hn : code.foldlM (fun k i => i.nest k) s.deadDepth = some k) :
    Meets (lowerCode cx function total position code) s fun _ t => s.Idles t ∧ t.deadDepth = k := by
  induction code generalizing s dom calls position
  case nil =>
    cases hn
    exact ⟨.refl hd, rfl⟩
  case cons i code hi =>
    rw [List.foldlM_cons] at hn
    obtain ⟨n, hni, hn⟩ := Option.bind_eq_some_iff.mp hn
    simp only [lowerCode, meets_bind, meets_note, meets_get, meets_ite]
    refine ⟨fun _ => trivial, fun _ => ?_⟩
    have hstep (j : Journal) := (step_idles (hv.journal j) hd hni).and (step_meets (hv.journal j))
    refine (hstep _).mono fun _ t h => ?_
    obtain ⟨⟨hst, hdepth⟩, dom', ht⟩ := h
    refine (hi ht hst.isDead (hdepth ▸ hn)).mono fun _ u h => ?_
    exact ⟨hst.of_journal.trans h.1, h.2⟩

end Lowering.Direct

end StackCompiler
