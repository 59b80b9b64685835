import StackCompiler.Proofs.DeadCode.Control
import StackCompiler.Proofs.Simulation.Start

-- Two lowerings from their beginning to their end. The one may meet code that the other does not, as
-- long as it is dead.

namespace StackCompiler.Lowering.Direct

open Bytecode (Instruction ValueType)
open Ssa (BlockId Function Op Renaming Scope ValueId)

variable {cx cx' : Context} {dom dom' : Scope} {calls calls' : List Nat} {s s' t t' u : State}
variable {ρ σ : Renaming} {i : Instruction} {code rest : List Instruction}
variable {function : String} {total total' position position' index : Nat} {ty : Scalar}
variable {types : List Scalar} {slots slots' : List Slot}

section Step

variable (hv : s.Valid cx dom calls) (hv' : t.Valid cx' dom' calls') (hc : cx.Renamed ρ cx')
variable (hx : step cx i s = .ok () s') (hx' : step cx' i t = .ok () t')
include hv hv' hx hx'

-- An instruction in dead code. It does nothing to live code, or closes a live region in both.
theorem State.Apart.step_alike (h : s.Apart ρ t) (hd : s.isDead = true) (hd' : t.isDead = true)
    (hn : t.deadDepth = s.deadDepth) : ∃ σ, ρ ≤ σ ∧ s'.Alike σ t' := by
  cases hk : i.nest s.deadDepth
  case some k =>
    obtain ⟨hi, hdepth⟩ := (step_idles hv hd hk).of_ok hx
    obtain ⟨hi', hdepth'⟩ := (step_idles hv' hd' (hn ▸ hk)).of_ok hx'
    refine ⟨ρ, le_rfl, .dead hi.isDead hi'.isDead (hdepth'.trans hdepth.symm) ?_⟩
    exact (h.idle_left hi).idle_right hi'
  case none =>
    have ha : s.Alike ρ t := .dead hd hd' hn h
    have hz : s.deadDepth = 0 := by
      cases i <;> cases hz : s.deadDepth <;> simp [Instruction.nest, hz] at hk ⊢
    cases i <;> simp [Instruction.nest] at hk
    case else_ => exact ha.else_step hv hv' hz (hn.trans hz) hx hx'
    case end_ => exact ha.close_step hv hv' hz (hn.trans hz) hx hx'

include hc

-- An instruction in live code does the same to both.
theorem State.Parallel.step_alike (h : s.Parallel ρ t) (hd : s.isDead = false)
    (hd' : t.isDead = false) : ∃ σ, ρ ≤ σ ∧ s'.Alike σ t' := by
  have hs := hv.active hd
  have ht := hv'.active hd'
  have hdd := hd'.trans hd.symm
  have halike {σ} (hle : ρ ≤ σ) (hp : s'.Parallel σ t') : ∃ σ, ρ ≤ σ ∧ s'.Alike σ t' := by
    obtain ⟨_, hw⟩ := (step_meets hv).of_ok hx
    obtain ⟨_, hw'⟩ := (step_meets hv').of_ok hx'
    exact ⟨σ, hle, hp.alike hw hw'⟩
  cases i
  case block type =>
    obtain ⟨res, hres, rfl⟩ := (startBlock_meets hv).of_ok hx
    obtain ⟨res', hres', rfl⟩ := (startBlock_meets hv').of_ok hx'
    cases hres.symm.trans hres'
    obtain ⟨σ, hle, hp⟩ := h.enter hs ht hdd (fun _ hfirst _ => ⟨.block, .jump hfirst⟩)
      (by simp [Op.successors]) (incoming_of_resultOf hres)
    exact halike hle hp
  case loop type =>
    obtain ⟨res, hres, rfl⟩ := (startLoop_meets hv).of_ok hx
    obtain ⟨res', hres', rfl⟩ := (startLoop_meets hv').of_ok hx'
    cases hres.symm.trans hres'
    obtain ⟨σ, hle, hp⟩ := h.enter hs ht hdd (fun _ hfirst _ => ⟨.loop hfirst, .jump hfirst⟩)
      (by simp [Op.successors]) (incoming_of_resultOf hres)
    exact halike hle hp
  case if_ type =>
    obtain ⟨lhs, cond, rhs, u, res, hpop, hi, _, hres, rfl⟩ := (startIf_meets hv).of_ok hx
    obtain ⟨lhs', cond', rhs', u', res', hpop', hi', _, hres', rfl⟩ := (startIf_meets hv').of_ok hx'
    cases hres.symm.trans hres'
    obtain ⟨σ, hle, hu, rfl, hl, hr⟩ := h.decides hs ht ((popCondition_decides hv hd).of_ok hpop)
      ((popCondition_decides hv' hd').of_ok hpop')
    have hlive := hi.advances.isDead.trans hd
    have hlive' := hi'.advances.isDead.trans hd'
    obtain ⟨σ', hle', hp⟩ := hu.enter (hi.valid.active hlive) (hi'.valid.active hlive')
      (hlive'.trans hlive.symm)
      (fun hσ hfirst hsecond =>
        ⟨.if_ .nil, .branch _ (hσ.1 _ _ hl) (hσ.1 _ _ hr) hfirst hsecond⟩)
      (by simp [Op.successors]) (incoming_of_resultOf hres)
    exact halike (hle.trans hle') hp
  case else_ =>
    exact (State.Alike.live hd hd' h).else_step hv hv' (hv.deadDepth_eq_zero hd)
      (hv'.deadDepth_eq_zero hd') hx hx'
  case end_ =>
    exact (State.Alike.live hd hd' h).close_step hv hv' (hv.deadDepth_eq_zero hd)
      (hv'.deadDepth_eq_zero hd') hx hx'
  case br depth =>
    rcases (branch_meets hv).of_ok hx with ⟨hdead, _⟩ | ⟨_, hl⟩
    · simp [hd] at hdead
    rcases (branch_meets hv').of_ok hx' with ⟨hdead, _⟩ | ⟨_, hl'⟩
    · simp [hd'] at hdead
    exact h.leaves hv hv' hd hd' hc.result hl hl'
  case brIf depth =>
    obtain ⟨lhs, cond, rhs, u, hpop, hi, ⟨_, hu⟩, ⟨hdead, _⟩ | ⟨hlive, hf⟩⟩ :=
      (branchIf_meets hv).of_ok hx
    · simp [hi.advances.isDead.trans hd] at hdead
    obtain ⟨lhs', cond', rhs', u', hpop', hi', ⟨_, hu'⟩, ⟨hdead, _⟩ | ⟨hlive', hf'⟩⟩ :=
      (branchIf_meets hv').of_ok hx'
    · simp [hi'.advances.isDead.trans hd'] at hdead
    obtain ⟨σ, hle, hp, rfl, hl, hr⟩ := h.decides hs ht ((popCondition_decides hv hd).of_ok hpop)
      ((popCondition_decides hv' hd').of_ok hpop')
    obtain ⟨σ', hle', hp'⟩ := hp.forks hi.valid hi'.valid hlive hlive' hc.result hl hr hu hu' hf hf'
    exact halike (hle.trans hle') hp'
  case return_ =>
    rcases (return_meets hv).of_ok hx with ⟨hdead, _⟩ | ⟨_, hl⟩
    · simp [hd] at hdead
    rcases (return_meets hv').of_ok hx' with ⟨hdead, _⟩ | ⟨_, hl'⟩
    · simp [hd'] at hdead
    exact h.leaves hv hv' hd hd' hc.result hl (h.regions.length_eq ▸ hl')
  all_goals
    obtain ⟨σ, hle, hp⟩ := h.computes hc hs ht ((step_computes hv hd trivial).of_ok hx)
      ((step_computes hv' hd' trivial).of_ok hx')
    exact halike hle hp

theorem step_alike (h : s.Alike ρ t) : ∃ σ, ρ ≤ σ ∧ s'.Alike σ t' := by
  cases h
  case live hd hd' h => exact h.step_alike hv hv' hc hx hx' hd hd'
  case dead hd hd' hn h => exact h.step_alike hv hv' hx hx' hd hd' hn

end Step

section Code

theorem exists_of_lowerCode_append
    (h : lowerCode cx function total position (code ++ rest) s = .ok () t) :
    ∃ u, lowerCode cx function total position code s = .ok () u ∧
      lowerCode cx function total (position + code.length) rest u = .ok () t := by
  have heq : lowerCode cx function total position (code ++ rest) = (do
      lowerCode cx function total position code
      lowerCode cx function total (position + code.length) rest) := by
    clear h
    induction code generalizing position
    case nil => rfl
    case cons i code hi =>
      simp only [List.cons_append, lowerCode, hi, List.length_cons, Nat.add_assoc, Nat.add_comm 1,
        bind_assoc]
      refine bind_congr fun _ => bind_congr fun u => ?_
      split <;> simp only [bind_assoc]
  obtain ⟨_, u, h₁, h₂⟩ := exists_of_bind_eq_ok (heq ▸ h)
  exact ⟨u, h₁, h₂⟩

-- The same code, lowered twice.
theorem lowerCode_alike (hv : s.Valid cx dom calls) (hv' : t.Valid cx' dom' calls')
    (hc : cx.Renamed ρ cx') (h : s.Alike ρ t)
    (hx : lowerCode cx function total position code s = .ok () s')
    (hx' : lowerCode cx' function total' position' code t = .ok () t') :
    ∃ σ, ρ ≤ σ ∧ s'.Alike σ t' := by
  induction code generalizing s t ρ dom dom' calls calls' position position'
  case nil =>
    cases hx
    cases hx'
    exact ⟨ρ, le_rfl, h⟩
  case cons i code hi =>
    obtain ⟨j, u, hstep, hx⟩ := exists_of_lowerCode_cons hx
    obtain ⟨j', u', hstep', hx'⟩ := exists_of_lowerCode_cons hx'
    obtain ⟨_, hu⟩ := (step_meets (hv.journal j)).of_ok hstep
    obtain ⟨_, hu'⟩ := (step_meets (hv'.journal j')).of_ok hstep'
    obtain ⟨σ, hle, ha⟩ := step_alike (hv.journal j) (hv'.journal j') hc hstep hstep' h.journal
    obtain ⟨σ', hle', ha⟩ := hi hu hu' (hc.mono hle) ha hx hx'
    exact ⟨σ', hle.trans hle', ha⟩

end Code

section Start

theorem State.Active.addParam {name : String} (h : s.Active) : (s.addParam name ty).Active :=
  ⟨h.toReady.addParam, h.wf.addParam_reaches_iff.mpr h.reaches⟩

theorem State.Active.alloc (h : s.Active) : (s.alloc index ty).Active :=
  h.emit rfl

theorem State.Active.param (h : s.Active) : (s.param index ty).Active :=
  h.addParam.alloc.emit rfl

theorem State.Active.zero (h : s.Active) : (s.zero index ty).Active :=
  (h.alloc.emit rfl).emit rfl

-- The slots of the parameters are set up one after the other.
theorem exists_of_declareParams_cons (hs : s.Ready)
    (h : declareParams index (ty :: types) s = .ok slots t) :
    ∃ rest, slots = s.paramSlot index ty :: rest ∧
      declareParams (index + 1) types (s.param index ty) = .ok rest t := by
  have hu : (s.addParam ("param" ++ toString index) ty).Ready := hs.addParam
  obtain ⟨_, _, hget, h⟩ := exists_of_bind_eq_ok h
  cases hget
  obtain ⟨_, _, hset, h⟩ := exists_of_bind_eq_ok h
  cases hset
  obtain ⟨_, _, halloc, h⟩ := exists_of_bind_eq_ok h
  cases (define_eq_ok hu).symm.trans halloc
  obtain ⟨_, _, hstore, h⟩ := exists_of_bind_eq_ok h
  cases (perform_eq_ok hu.alloc).symm.trans hstore
  obtain ⟨rest, _, hrest, h⟩ := exists_of_bind_eq_ok h
  cases h
  exact ⟨rest, rfl, hrest⟩

theorem exists_of_declareLocals_cons (hs : s.Ready)
    (h : declareLocals function index (ty :: types) s = .ok slots t) :
    ∃ j rest, slots = s.localSlot ty :: rest ∧
      declareLocals function (index + 1) types { s.zero index ty with journal := j } = .ok rest t := by
  obtain ⟨_, _, halloc, h⟩ := exists_of_bind_eq_ok h
  cases (define_eq_ok hs).symm.trans halloc
  obtain ⟨_, _, hzero, h⟩ := exists_of_bind_eq_ok h
  cases (define_eq_ok hs.alloc).symm.trans hzero
  obtain ⟨_, _, hstore, h⟩ := exists_of_bind_eq_ok h
  cases (perform_eq_ok (hs.alloc.emit rfl)).symm.trans hstore
  obtain ⟨_, _, hnote, h⟩ := exists_of_bind_eq_ok h
  cases hnote
  obtain ⟨rest, _, hrest, h⟩ := exists_of_bind_eq_ok h
  cases h
  exact ⟨_, rest, rfl, hrest⟩

section Slots

variable (h : s.Parallel ρ t) (hs : s.Active) (ht : t.Active)
include h hs ht

theorem State.Parallel.alloc : (s.alloc index ty).Parallel
    (ρ.addValue s.function.freshValue t.function.freshValue) (t.alloc index ty) :=
  h.emit hs ht (.alloc ty.size ty.size) rfl

theorem State.Parallel.param (hp : List.Forall₂ ρ.value s.function.params t.function.params) :
    ∃ σ, ρ ≤ σ ∧ (s.param index ty).Parallel σ (t.param index ty) ∧
      (s.paramSlot index ty).Renamed σ (t.paramSlot index ty) ∧
      List.Forall₂ σ.value (s.param index ty).function.params (t.param index ty).function.params := by
  let σ := ρ.addValue s.function.freshValue t.function.freshValue
  have hle : ρ ≤ σ := ρ.le_addValue ..
  have hadd : (s.addParam ("param" ++ toString index) ty).Parallel σ
      (t.addParam ("param" ++ toString index) ty) :=
    ⟨h.function.addParam hs.wf hp.length_eq, h.isEnded, h.block, h.stack.imp fun _ _ => .mono hle,
      h.regions.imp fun _ _ => .mono hle⟩
  have hslot := σ.addValue_self (s.paramSlot index ty).address (t.paramSlot index ty).address
  have hparam := ρ.addValue_self s.function.freshValue t.function.freshValue
  refine ⟨_, hle.trans ((σ.le_addValue ..).trans (Renaming.le_addValue ..)),
    (hadd.alloc hs.addParam ht.addParam).emit hs.addParam.alloc ht.addParam.alloc
      (.store (.inl hparam) hslot) rfl, ⟨rfl, .inl hslot⟩, ?_⟩
  exact List.rel_append (hp.imp fun _ _ hv => .inl (.inl (.inl hv))) (.cons (.inl (.inl hparam)) .nil)

theorem State.Parallel.zero : ∃ σ, ρ ≤ σ ∧ (s.zero index ty).Parallel σ (t.zero index ty) ∧
    (s.localSlot ty).Renamed σ (t.localSlot ty) := by
  let σ := ρ.addValue s.function.freshValue t.function.freshValue
  have hslot : σ.value s.function.freshValue t.function.freshValue := ρ.addValue_self ..
  have hzero : ((s.alloc index ty).emit "zero" (some ty) (.const (.zero ty))).Parallel _
      ((t.alloc index ty).emit "zero" (some ty) (.const (.zero ty))) :=
    (h.alloc hs ht).emit hs.alloc ht.alloc (.const _) rfl
  exact ⟨_, (ρ.le_addValue ..).trans ((σ.le_addValue ..).trans (Renaming.le_addValue ..)),
    hzero.emit (hs.alloc.emit rfl) (ht.alloc.emit rfl)
      (.store (Renaming.addValue_self ..) (.inl hslot)) rfl, rfl, .inl (.inl hslot)⟩

theorem declareParams_parallel (hp : List.Forall₂ ρ.value s.function.params t.function.params)
    (hx : declareParams index types s = .ok slots s')
    (hx' : declareParams index types t = .ok slots' t') :
    ∃ σ, ρ ≤ σ ∧ s'.Parallel σ t' ∧ List.Forall₂ (Slot.Renamed σ) slots slots' ∧
      List.Forall₂ σ.value s'.function.params t'.function.params := by
  induction types generalizing s t ρ index slots slots'
  case nil =>
    cases hx
    cases hx'
    exact ⟨ρ, le_rfl, h, .nil, hp⟩
  case cons ty types hi =>
    obtain ⟨rest, rfl, hr⟩ := exists_of_declareParams_cons hs.toReady hx
    obtain ⟨rest', rfl, hr'⟩ := exists_of_declareParams_cons ht.toReady hx'
    obtain ⟨σ, hle, h, hslot, hp⟩ := h.param hs ht hp
    obtain ⟨σ', hle', h, hslots, hp⟩ := hi h hs.param ht.param hp hr hr'
    exact ⟨σ', hle.trans hle', h, .cons (hslot.mono hle') hslots, hp⟩

theorem declareLocals_parallel (hx : declareLocals function index types s = .ok slots s')
    (hx' : declareLocals function index types t = .ok slots' t') :
    ∃ σ, ρ ≤ σ ∧ s'.Parallel σ t' ∧ List.Forall₂ (Slot.Renamed σ) slots slots' := by
  induction types generalizing s t ρ index slots slots'
  case nil =>
    cases hx
    cases hx'
    exact ⟨ρ, le_rfl, h, .nil⟩
  case cons ty types hi =>
    obtain ⟨j, rest, rfl, hr⟩ := exists_of_declareLocals_cons hs.toReady hx
    obtain ⟨j', rest', rfl, hr'⟩ := exists_of_declareLocals_cons ht.toReady hx'
    obtain ⟨σ, hle, h, hslot⟩ := h.zero hs ht
    obtain ⟨σ', hle', h, hslots⟩ := hi h.journal hs.zero.journal ht.zero.journal hr hr'
    exact ⟨σ', hle.trans hle', h, .cons (hslot.mono hle') hslots⟩

end Slots

-- Nothing but the entry is there at first.
theorem State.parallel_blank (s t : State) (name : String) (result : Option Scalar) :
    ∃ ρ, (s.blank name result).Parallel ρ (t.blank name result) := by
  refine ⟨⟨fun _ _ => False, fun b c => b = ⟨0⟩ ∧ c = ⟨0⟩⟩, ?_, rfl, ⟨rfl, rfl⟩, .nil, .nil⟩
  refine ⟨False.elim, ?_, ?_, .some ⟨rfl, rfl⟩, False.elim, ?_⟩
  · rintro b c b' c' ⟨rfl, rfl⟩ ⟨rfl, rfl⟩
    rfl
  · rintro b c ⟨rfl, rfl⟩
    exact ⟨Nat.zero_lt_one, Nat.zero_lt_one⟩
  · rintro b c ⟨rfl, rfl⟩ _
    exact .nil

end Start

theorem State.Alike.isDead (h : s.Alike ρ t) : t.isDead = s.isDead := by
  cases h
  case live hs ht _ => rw [hs, ht]
  case dead hs ht _ _ => rw [hs, ht]

-- The end of the body.
theorem State.Alike.concludes (h : s.Alike ρ t) (hv : s.Valid cx dom calls)
    (hv' : t.Valid cx' dom' calls') (hc : cx'.result = cx.result) (hx : s.Concludes cx s')
    (hx' : t.Concludes cx' t') : ∃ σ, ρ ≤ σ ∧ s'.function.Matches σ t'.function := by
  cases h
  case live hd hd' h =>
    cases hx
    case dead hx => simp [hd] at hx
    case live hr =>
      cases hx'
      case dead hx' => simp [hd'] at hx'
      case live hr' =>
        obtain ⟨_, rfl, _⟩ := hr.exists_pop_below
        obtain ⟨_, rfl, _⟩ := hr'.exists_pop_below
        have hs := hv.active hd
        refine ⟨_, ρ.le_addValue .., h.function.emit hs.wf hs.isOpen hv'.isOpen h.block hs.reaches
          (h.yields hc hr.yields hr'.yields) fun _ hb => ?_⟩
        simp [hr.yields.successors] at hb
  case dead hd hd' _ h =>
    cases hx
    case live hx _ => simp [hd] at hx
    case dead =>
      cases hx'
      case live hx' _ => simp [hd'] at hx'
      case dead =>
        exact ⟨ρ, le_rfl, (h.function.spare_left (hv.placed.spares_emit hd)).spare_right
          (hv'.placed.spares_emit hd')⟩

end StackCompiler.Lowering.Direct
