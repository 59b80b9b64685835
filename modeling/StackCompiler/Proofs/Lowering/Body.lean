import StackCompiler.Proofs.Lowering.Close

-- What holds between instructions holds all along a body.

namespace StackCompiler

-- The function that an instruction calls.
def Bytecode.Instruction.callee? : Instruction → Option Nat
  | call index => some index
  | _ => none

namespace Lowering.Direct

open Bytecode (Instruction)
open Ssa (BlockId Function Op Scope ValueId)

variable {cx : Context} {dom : Scope} {calls : List Nat} {s t : State} {i : Instruction}

-- The instructions that neither open nor leave nor close a region stay in their block.
theorem step_inside_meets (hv : s.Valid cx dom calls)
    (hi : match i with
      | .block _ | .loop _ | .if_ _ | .else_ | .end_ | .br _ | .brIf _ | .return_ => False
      | _ => True) :
    Meets (step cx i) s fun _ t => Inside cx dom (calls ++ i.callee?.toList) s t := by
  have hnil : calls ++ (none : Option Nat).toList = calls := by simp
  cases i <;> simp only [step, Bytecode.Instruction.callee?, hnil]
  case binary => exact binary_meets hv
  case compare => exact compare_meets hv
  case eqz => exact eqz_meets hv
  case neg => exact neg_meets hv
  case floor => exact floor_meets hv
  case const =>
    refine (define_meets hv ⟨rfl, rfl, rfl⟩ .const).bind fun v t ⟨hi, hu⟩ => ?_
    exact push_meets hi hu
  case localGet => exact localGet_meets hv
  case localSet => exact meets_discard.mpr <| (localSet_meets hv).mono fun _ _ h => h.1
  case localTee => exact (localSet_meets hv).bind fun v t ⟨hi, _, hu⟩ => push_meets hi hu
  case globalGet => exact globalGet_meets hv
  case globalSet => exact globalSet_meets hv
  case load => exact load_meets hv
  case store => exact store_meets hv
  case call => exact call_meets hv
  case drop => exact meets_discard.mpr <| (popOperand_meets hv).mono fun _ _ h => h.1
  case nop => exact ⟨hv, .refl s⟩
  case block | loop | if_ | else_ | end_ | br | brIf | return_ => exact hi.elim
  all_goals trivial

theorem step_meets (hv : s.Valid cx dom calls) :
    Meets (step cx i) s fun _ t => ∃ dom', t.Valid cx dom' (calls ++ i.callee?.toList) := by
  have hnil : calls ++ (none : Option Nat).toList = calls := by simp
  cases i <;> simp only [Bytecode.Instruction.callee?, hnil]
  case block =>
    refine (startBlock_meets hv).mono fun _ t ⟨res, hr, ht⟩ => ?_
    exact ht ▸ hv.enter .block .jump (incoming_of_resultOf hr)
  case loop =>
    refine (startLoop_meets hv).mono fun _ t ⟨res, hr, ht⟩ => ?_
    exact ht ▸ hv.enter .loop .jump (incoming_of_resultOf hr)
  case if_ =>
    refine (startIf_meets hv).mono fun _ t ⟨l, c, r, u, res, _, hi, ⟨ty, hl, hr⟩, hres, ht⟩ => ?_
    exact ht ▸ hi.valid.enter (.if_ l c r) (.branch hl hr) (incoming_of_resultOf hres)
  case else_ =>
    refine (startElse_meets hv).mono fun _ t h => ?_
    have ⟨r, outer, breaks, op, after, g, hr, hk, he, hg, ht⟩ := h
    exact ht ▸ he.valid_turn hv hr hk hg
  case end_ =>
    refine (close_meets hv).mono fun _ t h => ?_
    rcases h with ⟨_, rfl⟩ | ⟨r, outer, op, after, hr, hi, he, rfl⟩
    · exact ⟨dom, hv.congr rfl rfl rfl rfl rfl⟩
    · exact ⟨dom, he.valid hv hr hi⟩
  case br =>
    refine (branch_meets hv).mono fun _ t h => ?_
    rcases h with ⟨_, rfl⟩ | ⟨hd, hl⟩
    · exact ⟨dom, hv⟩
    · exact hl.valid hv hd
  case brIf =>
    refine (branchIf_meets hv).mono fun _ t h => ?_
    have ⟨lhs, cond, rhs, u, _, hi, ⟨ty, hl, hr⟩, hor⟩ := h
    rcases hor with ⟨_, rfl⟩ | ⟨hd, hf⟩
    · exact ⟨dom, hi.valid⟩
    · exact hf.valid hi.valid hd hl hr
  case return_ =>
    refine (return_meets hv).mono fun _ t h => ?_
    rcases h with ⟨_, rfl⟩ | ⟨hd, hl⟩
    · exact ⟨dom, hv⟩
    · exact hl.valid hv hd
  all_goals
    refine (step_inside_meets hv trivial).mono fun _ _ h => ⟨dom, ?_⟩
    simpa [Bytecode.Instruction.callee?] using h.valid

theorem lowerCode_meets {function : String} {total position : Nat} {code : List Instruction}
    (hv : s.Valid cx dom calls) :
    Meets (lowerCode cx function total position code) s fun _ t =>
      ∃ dom', t.Valid cx dom' (calls ++ code.filterMap Instruction.callee?) := by
  induction code generalizing s dom calls position
  case nil => exact ⟨dom, by simpa using hv⟩
  case cons i code hi =>
    simp only [lowerCode, meets_bind, meets_note, meets_get, meets_ite]
    refine ⟨fun _ => trivial, fun _ => ?_⟩
    refine (step_meets (hv.journal _)).mono fun _ t h => ?_
    obtain ⟨dom', ht⟩ := h
    refine (hi ht).mono fun _ u h => ?_
    obtain ⟨dom'', hu⟩ := h
    refine ⟨dom'', ?_⟩
    have he : i.callee?.toList ++ code.filterMap Instruction.callee? =
        (i :: code).filterMap Instruction.callee? := by
      cases hc : i.callee? <;> simp [hc]
    rwa [List.append_assoc, he] at hu

-- An instruction is put down in the journal before anything is done with it.
theorem exists_step_of_lowerCode_cons {function : String} {total position : Nat}
    {code : List Instruction} (h : lowerCode cx function total position (i :: code) s = .ok () t) :
    ∃ u, step cx i { s with
        journal := s.journal.record (.instructionReached position total i.opcode) |>.record
          (.instructionLowered i.opcode) } = .ok () u ∧
      lowerCode cx function total (position + 1) code u = .ok () t := by
  obtain ⟨_, _, hnote, h⟩ := exists_of_bind_eq_ok h
  cases hnote
  obtain ⟨_, _, hget, h⟩ := exists_of_bind_eq_ok h
  cases hget
  dsimp only at h
  split at h
  case isTrue => cases h
  case isFalse =>
    obtain ⟨_, _, hnote, h⟩ := exists_of_bind_eq_ok h
    cases hnote
    obtain ⟨_, u, hstep, h⟩ := exists_of_bind_eq_ok h
    exact ⟨u, hstep, h⟩

theorem exists_of_lowerCode_cons {function : String} {total position : Nat}
    {code : List Instruction} (h : lowerCode cx function total position (i :: code) s = .ok () t) :
    ∃ j u, step cx i { s with journal := j } = .ok () u ∧
      lowerCode cx function total (position + 1) code u = .ok () t :=
  ⟨_, exists_step_of_lowerCode_cons h⟩

end Lowering.Direct

end StackCompiler
