import StackCompiler.Proofs.Lowering.Trace
import StackCompiler.Proofs.Ssa.Verification
import Mathlib.Algebra.GroupWithZero.Nat

-- What the journal counts while a function is lowered, and what of it the finished function still has.
-- Blocks and phis are counted when they are made, in dead code too. Blocks go again, but phis stay.

namespace StackCompiler

namespace Ssa

theorem Op.isPhi_of_retarget? {op op' : Op} {old new : BlockId} (h : op.retarget? old new = some op') :
    op.isPhi = false ∧ op'.isPhi = false := by
  cases op <;> simp only [retarget?] at h <;> grind [isPhi]

namespace Function

variable {f g : Function} {b old new : BlockId} {v : ValueId} {d : ValueDef} {op : Op} {dom : Scope}
variable {name : String} {type : Option Scalar}

-- The phis of all blocks, in the order of their creation.
def allPhis (f : Function) : List ValueId :=
  ((List.range f.values.size).map ValueId.mk).filter fun v => f.IsPhi v

-- Every phi stands in a block, and takes a value from somewhere.
def Joined (f : Function) : Prop :=
  ∀ v d incoming, f.value? v = some d → d.op = .phi incoming → d.block.isSome = true ∧ incoming ≠ []

theorem IsPhi.exists_eq (h : f.IsPhi v) : ∃ d incoming, f.value? v = some d ∧ d.op = .phi incoming := by
  obtain ⟨d, hd, hp⟩ := Option.any_eq_true _ _ |>.mp h
  obtain ⟨incoming, ho⟩ := Op.eq_phi_of_isPhi hp
  exact ⟨d, incoming, hd, ho⟩

theorem mem_allPhis_iff : v ∈ f.allPhis ↔ f.IsPhi v := by
  rw [allPhis, List.mem_filter, decide_eq_true_eq, and_iff_right_iff_imp]
  intro hp
  obtain ⟨d, _, hd, _⟩ := hp.exists_eq
  exact List.mem_map.mpr ⟨v.index, List.mem_range.mpr (index_lt_of_value? hd), rfl⟩

theorem nodup_allPhis : f.allPhis.Nodup :=
  (List.nodup_range.map fun _ _ h => congrArg ValueId.index h).filter _

section Change

theorem allPhis_of_push (h : g.values = f.values.push d) :
    g.allPhis = f.allPhis ++ if d.op.isPhi then [f.freshValue] else [] := by
  have hold : ∀ v ∈ (List.range f.values.size).map ValueId.mk,
      decide (g.IsPhi v) = decide (f.IsPhi v) := by
    intro v hv
    obtain ⟨n, hn, rfl⟩ := List.mem_map.mp hv
    have hvalue : g.value? ⟨n⟩ = f.value? ⟨n⟩ := by
      simp [value?, h, Array.getElem?_push, (List.mem_range.mp hn).ne]
    exact decide_eq_decide.mpr (by rw [IsPhi, IsPhi, hvalue])
  have hnew : decide (g.IsPhi ⟨f.values.size⟩) = d.op.isPhi := by
    simp [IsPhi, value?, h]
  rw [allPhis, h, Array.size_push, List.range_succ, List.map_append, List.filter_append,
    List.filter_congr hold, List.map_singleton, List.filter_singleton, hnew, Bool.cond_eq_ite]
  rfl

theorem allPhis_append (h : append b name type op f = .ok v g) :
    g.allPhis = f.allPhis ++ if op.isPhi then [f.freshValue] else [] := by
  obtain ⟨_, _, rfl⟩ := exists_of_append h
  exact allPhis_of_push (d := ⟨name, type, op, some b⟩) rfl

theorem allPhis_retarget (h : retarget b old new f = .ok () g) : g.allPhis = f.allPhis := by
  obtain ⟨op₁, op₂, ho, hr, rfl⟩ := exists_of_retarget h
  obtain ⟨hp₁, hp₂⟩ := Op.isPhi_of_retarget? hr
  have hsize : (f.redirect b op₂).values.size = f.values.size := by
    unfold redirect
    split <;> simp
  have hphi : ∀ v, (f.redirect b op₂).IsPhi v ↔ f.IsPhi v := by
    intro v
    cases hd : f.value? v
    case none =>
      obtain ⟨w, _, hw, _⟩ := terminator?_eq_some_iff.mp ho
      simp [IsPhi, redirect_value? hw, hd]
    case some d =>
      obtain ⟨op', hd', rfl | ⟨rfl, ho'⟩⟩ := redirect_value?_of_some (o := op₂) ho hd
      · rw [isPhi_iff hd', isPhi_iff hd]
      · simp [isPhi_iff hd', isPhi_iff hd, hp₂, ho', hp₁]
  simp only [allPhis, hsize, hphi]

theorem Joined.append (h : f.Joined) (hp : op ≠ .phi []) (hg : append b name type op f = .ok v g) :
    g.Joined := by
  obtain ⟨_, _, rfl⟩ := exists_of_append hg
  intro v d incoming hd ho
  rw [emit_value?] at hd
  split at hd
  case isTrue =>
    cases hd
    exact ⟨rfl, fun hi => hp (hi ▸ ho)⟩
  case isFalse => exact h v d incoming hd ho

theorem Joined.addParam {type : Scalar} (h : f.Joined) : (f.addParam name type).2.Joined := by
  intro v d incoming hd ho
  rw [addParam_value?] at hd
  split at hd
  case isTrue =>
    cases hd
    cases ho
  case isFalse => exact h v d incoming hd ho

theorem Joined.retarget (h : f.Joined) (hg : retarget b old new f = .ok () g) : g.Joined := by
  obtain ⟨op₁, op₂, ht, hr, rfl⟩ := exists_of_retarget hg
  intro v d incoming hd ho
  obtain ⟨op', hd', rfl | ⟨rfl, ho'⟩⟩ := exists_of_redirect_value? ht hd
  · exact h v _ incoming hd' ho
  · have hp := (Op.isPhi_of_retarget? hr).2
    rw [← ho', ho] at hp
    cases hp

end Change

theorem size_append (h : append b name type op f = .ok v g) : g.blocks.size = f.blocks.size := by
  obtain ⟨_, _, rfl⟩ := exists_of_append h
  exact emit_size

theorem size_retarget (h : retarget b old new f = .ok () g) : g.blocks.size = f.blocks.size := by
  obtain ⟨_, _, _, _, rfl⟩ := exists_of_retarget h
  rw [redirect_blocks]

section Layout

theorem phis_eq : f.phis b = (f.insts b).filter fun v => f.IsPhi v := by
  rw [phis, instructions_eq, List.filterMap_filterMap, ← List.filterMap_eq_filter]
  refine List.filterMap_congr fun v _ => ?_
  cases hd : f.value? v <;> simp [IsPhi, hd, Option.guard]

-- A block that has a phi is reached from those that the phi takes its values from.
theorem Complete.mem_phis_iff (h : f.Complete dom) (hj : f.Joined) :
    (∃ b ∈ f.trimmed.layout, v ∈ f.phis b) ↔ v ∈ f.allPhis := by
  simp only [Function.mem_phis_iff, mem_allPhis_iff]
  constructor
  case mp =>
    rintro ⟨b, _, _, hp⟩
    exact hp
  case mpr =>
    intro hp
    obtain ⟨d, incoming, hd, ho⟩ := hp.exists_eq
    obtain ⟨hb, hne⟩ := hj v d incoming hd ho
    obtain ⟨b, hb⟩ := Option.isSome_iff_exists.mp hb
    have hv := h.draft.wf.lists hd hb
    have hm := h.draft.phis hv hd ho
    obtain ⟨i, hi⟩ := List.exists_mem_of_ne_nil _ hne
    have hi := List.mem_map_of_mem (f := Prod.fst) hi
    refine ⟨b, (mem_trimmed_layout_iff h.draft).mpr ?_, hv, hp⟩
    exact .step (hm.reached _ hi) ((hm.mem_iff _).mp hi)

theorem Complete.sum_phis (h : f.Complete dom) (hj : f.Joined) :
    (f.trimmed.layout.map fun b => (f.trimmed.phis b).length).sum = f.allPhis.length := by
  have hnodup : (f.trimmed.layout.flatMap f.phis).Nodup := by
    refine List.nodup_flatMap.mpr ⟨fun b _ => ?_, ?_⟩
    · rw [phis_eq]
      exact (h.draft.wf.nodup_insts b).filter _
    · have hlayout : f.trimmed.layout.Nodup := by
        rw [trimmed, h.draft.wf.layout_eq]
        exact nodup_created.filter _
      refine hlayout.imp fun hne v hv hv' => hne ?_
      have hv := (Function.mem_phis_iff.mp hv).1
      exact h.draft.wf.block_eq_of_mem_insts hv (Function.mem_phis_iff.mp hv').1
  have hperm : (f.trimmed.layout.flatMap f.phis).Perm f.allPhis := by
    refine (List.perm_ext_iff_of_nodup hnodup nodup_allPhis).mpr fun v => ?_
    rw [List.mem_flatMap]
    exact h.mem_phis_iff hj
  rw [← hperm.length_eq, List.length_flatMap]
  rfl

-- The entry always stays.
theorem Complete.trimmed_layout_ne_nil (h : f.Complete dom) : f.trimmed.layout ≠ [] := by
  obtain ⟨e, he⟩ := Option.isSome_iff_exists.mp h.draft.entry
  exact List.ne_nil_of_mem ((mem_trimmed_layout_iff h.draft).mpr (.entry he))

theorem Complete.blocks_size (h : f.Complete dom) :
    f.blocks.size = f.prune.1 + f.trimmed.layout.length := by
  have hsize : f.layout.length = f.blocks.size := by
    simp [h.draft.wf.layout_eq, created]
  have hle : f.trimmed.layout.length ≤ f.layout.length := List.length_filter_le ..
  have hprune : f.prune.1 = f.layout.length - f.trimmed.layout.length := by
    simp only [prune, trimmed]
    split
    case isTrue hr => exact hr.symm
    case isFalse => rfl
  omega

end Layout

end Function

end Ssa

theorem Statistics.exists_record_functionLowered (s : Statistics) (name : String) (blocks : Nat) :
    ∃ largestBlocks largestName, s.record (.functionLowered name blocks) =
      { s with functions := s.functions + 1, largestBlocks, largestName } := by
  rw [record]
  split
  · exact ⟨_, _, rfl⟩
  · exact ⟨_, _, rfl⟩

-- What the statistics gain when code of a length is lowered to functions.
structure Statistics.Gains (s t : Statistics) (fs : List Ssa.Function) (length : Nat) : Prop where
  functions : t.functions = s.functions + fs.length
  instructions : t.instructions = s.instructions + length
  -- A block that was made is in the layout or was pruned.
  blocks : ∃ pruned, t.blocksPruned = s.blocksPruned + pruned ∧
    t.blocksCreated = s.blocksCreated + pruned + (fs.map fun f => f.layout.length).sum
  phis : t.phis = s.phis + (fs.map fun f => (f.layout.map fun b => (f.phis b).length).sum).sum

theorem Statistics.Gains.trans {s t u : Statistics} {fs gs : List Ssa.Function} {m n : Nat}
    (h₁ : s.Gains t fs m) (h₂ : t.Gains u gs n) : s.Gains u (fs ++ gs) (m + n) := by
  obtain ⟨p, hp, hb⟩ := h₁.blocks
  obtain ⟨q, hq, hc⟩ := h₂.blocks
  refine ⟨?functions, ?instructions, ⟨p + q, ?pruned, ?created⟩, ?phis⟩
  case functions => rw [h₂.functions, h₁.functions, List.length_append, Nat.add_assoc]
  case instructions => rw [h₂.instructions, h₁.instructions, Nat.add_assoc]
  case pruned => rw [hq, hp, Nat.add_assoc]
  case created =>
    rw [hc, hb, List.map_append, List.sum_append]
    omega
  case phis => rw [h₂.phis, h₁.phis, List.map_append, List.sum_append, Nat.add_assoc]

namespace Lowering.Direct

open Bytecode (Instruction)
open Ssa (Function)

variable {s t : State} {base : Statistics} {cx : Context} {options : Options}
variable {globals : List GlobalSlot} {callees : List Callee} {own : Callee} {body : Bytecode.Body}
variable {f : Function}

-- On top of `base` the journal counts the blocks and the phis of the function, and nothing else.
structure State.Tallies (base : Statistics) (s : State) : Prop where
  totals : s.journal.totals = { base with
    blocksCreated := base.blocksCreated + s.function.blocks.size
    phis := base.phis + s.function.allPhis.length }
  joined : s.function.Joined

def State.KeepsTally (s t : State) : Prop :=
  ∀ base, s.Tallies base → t.Tallies base

theorem State.keepsTally_of_eq (ht : t.journal.totals = s.journal.totals)
    (hb : t.function.blocks.size = s.function.blocks.size)
    (hp : t.function.allPhis = s.function.allPhis)
    (hj : s.function.Joined → t.function.Joined) : s.KeepsTally t :=
  fun _ h => ⟨by rw [ht, hb, hp, h.totals], hj h.joined⟩

theorem State.keepsTally_grow : s.KeepsTally s.grow := by
  intro base h
  refine ⟨?_, h.joined⟩
  have hsize : s.grow.function.blocks.size = s.function.blocks.size + 1 := Function.addBlock_size
  have hphis : s.grow.function.allPhis = s.function.allPhis := rfl
  rw [hsize, hphis, grow, Journal.totals_record_of_counted rfl, Journal.totals_record rfl, h.totals]
  rfl

theorem State.keepsTally_phi {name : String} {type : Option Scalar}
    {incoming : List (Ssa.BlockId × Ssa.ValueId)} {v : Ssa.ValueId} (hi : incoming ≠ [])
    (h : Function.append s.block name type (.phi incoming) s.function = .ok v f) :
    s.KeepsTally { s with journal := s.journal.record .phiCreated, function := f } := by
  intro base hs
  refine ⟨?_, hs.joined.append (by simpa using hi) h⟩
  have hphis : f.allPhis.length = s.function.allPhis.length + 1 := by
    simp [Function.allPhis_append h, Ssa.Op.isPhi]
  rw [hphis, Function.size_append h, Journal.totals_record_of_counted rfl, hs.totals]
  rfl

instance : Throughout State.KeepsTally State.Whatever where
  refl _ h := h
  trans h₁ h₂ base h := h₂ base (h₁ base h)
  stop := trivial
  fail _ _ := trivial
  quiet h := State.keepsTally_of_eq h.totals (by rw [h.function]) (by rw [h.function])
    fun hj => by rwa [h.function]
  newBlock := State.keepsTally_grow
  append hp h := State.keepsTally_of_eq rfl (Function.size_append h)
    (by simp [Function.allPhis_append h, hp]) fun hj => hj.append (by rintro rfl; cases hp) h
  retarget h := State.keepsTally_of_eq rfl (Function.size_retarget h) (Function.allPhis_retarget h)
    fun hj => hj.retarget h
  phi hi h := State.keepsTally_phi hi h
  announced := trivial

-- Each instruction counts, and what it does changes nothing in what was counted before.
theorem exists_tallies_of_lowerCode {function : String} {total position : Nat}
    {code : List Instruction} (h : lowerCode cx function total position code s = .ok () t)
    (hs : s.Tallies base) :
    ∃ opcodes, t.Tallies
      { base with instructions := base.instructions + code.length, opcodes := opcodes } := by
  induction code generalizing s base position
  case nil =>
    cases h
    exact ⟨base.opcodes, hs⟩
  case cons i code hi =>
    obtain ⟨u, hstep, h⟩ := exists_step_of_lowerCode_cons h
    have hkeeps := (step_relates (R := State.KeepsTally) (E := State.Whatever)).of_ok hstep
    have hu := hkeeps (base.record (.instructionLowered i.opcode)) ⟨by
      rw [Journal.totals_record_of_counted rfl, Journal.totals_record rfl, hs.totals]
      rfl, hs.joined⟩
    obtain ⟨opcodes, ht⟩ := hi h hu
    refine ⟨opcodes, ?_⟩
    rw [List.length_cons, Nat.add_comm code.length, ← Nat.add_assoc]
    exact ht

theorem Lowered.exists_tallies_last (l : Lowered globals callees own body) :
    ∃ opcodes, l.last.Tallies { l.origin.journal.totals with
      instructions := l.origin.journal.totals.instructions + body.code.length
      opcodes := opcodes } := by
  have hfresh : (l.origin.fresh own.name l.result).Tallies l.origin.journal.totals :=
    ⟨rfl, by simp [State.fresh, Function.Joined, Function.empty, Function.value?]⟩
  have hready : (l.origin.fresh own.name l.result).KeepsTally l.ready :=
    l.relates_ready (E := State.Whatever) fun s name type => State.keepsTally_of_eq rfl rfl
      (by rw [Function.allPhis_of_push rfl]; simp [Ssa.Op.isPhi]) .addParam
  obtain ⟨opcodes, hended⟩ := exists_tallies_of_lowerCode l.lowerCode_eq (hready _ hfresh)
  have hlast := (closeBody_relates (R := State.KeepsTally) (E := State.Whatever)).of_ok l.closeBody_eq
  exact ⟨opcodes, hlast _ hended⟩

theorem gains_of_lowerFunction (h : lowerFunction options globals callees own body s = .ok f t) :
    s.journal.totals.Gains t.journal.totals [f] body.code.length := by
  obtain ⟨l, ho, rfl, _, ht⟩ := exists_of_lowerFunction_counts h
  have hs : l.origin.journal.totals = s.journal.totals := by
    rw [ho]
    exact Journal.totals_record rfl
  obtain ⟨opcodes, hl⟩ := l.exists_tallies_last
  have hc := l.finished.complete
  have hsize := hc.blocks_size
  obtain ⟨blocks, name, hrecord⟩ := Statistics.exists_record_functionLowered
    (l.last.journal.totals.record (.blocksPruned l.last.function.prune.1))
    l.last.function.trimmed.name l.last.function.trimmed.layout.length
  rw [ht, hrecord, hl.totals, hs]
  refine ⟨rfl, rfl, ⟨l.last.function.prune.1, rfl, ?created⟩, ?phis⟩
  case created => simp [Statistics.record, hsize, Nat.add_assoc]
  case phis => simp [Statistics.record, hc.sum_phis hl.joined]

theorem gains_of_lowerBodies {bodies : List (Callee × Bytecode.Body)} {functions : List Function}
    (h : lowerBodies options globals callees bodies s = .ok functions t) :
    s.journal.totals.Gains t.journal.totals functions
      (bodies.map fun x => x.2.code.length).sum := by
  induction bodies generalizing s functions
  case nil =>
    cases h
    exact ⟨rfl, rfl, ⟨0, rfl, rfl⟩, rfl⟩
  case cons x bodies hi =>
    obtain ⟨f, u, rest, hf, hrest, rfl⟩ := exists_of_lowerBodies_cons h
    exact (gains_of_lowerFunction hf).trans (hi hrest)

end Lowering.Direct

end StackCompiler
