import StackCompiler.Proofs.Slots.Discipline

-- The instructions that open, leave and close regions keep to the discipline of addresses, and so does
-- a whole body.

namespace StackCompiler.Lowering.Direct

open Bytecode (BlockType Instruction)
open Ssa (BlockId Function Op ValueId)

variable {cx : Context} {f g : Function} {s t : State} {v : ValueId} {op : Op} {opcode : String}
variable {region : Region} {result : Option Result} {b continuation : BlockId} {depth : Nat}

-- No address is on its way to the phi of a result.
def Gathers (f : Function) (result : Option Result) : Prop :=
  ∀ r ∈ result, ∀ i ∈ r.incoming, f.Plain i.2

theorem Gathers.mono (h : Gathers f result) (hb : f.Begins g) : Gathers g result :=
  fun r hr i hi => hb.plain (h r hr i hi)

theorem Gathers.none : Gathers f none := by
  simp [Gathers]

theorem gathers_of_resultOf {type : BlockType} (h : resultOf type = .ok result) : Gathers f result := by
  cases type <;> cases h <;> simp [Gathers]

theorem State.Tame.gathers (h : s.Tame cx) (hr : region ∈ s.regions) :
    Gathers s.function region.result :=
  h.regions region hr

theorem State.Tame.setRegions {rs : List Region} (h : s.Tame cx)
    (hr : ∀ r ∈ rs, Gathers s.function r.result) : ({ s with regions := rs } : State).Tame cx :=
  ⟨h.values, h.stack, hr⟩

section Regions

variable (h : s.Tame cx)
include h

theorem newBlock_tames : Tames cx newBlock s fun _ _ => True := by
  intro _ _ hx
  cases hx
  exact ⟨h.grow, Function.Grows.addBlock.toBegins, trivial⟩

theorem setBlock_tames : Tames cx (setBlock b) s fun _ _ => True :=
  .modify ⟨h.values, h.stack, h.regions⟩ rfl trivial

theorem truncate_tames {height : Nat} : Tames cx (truncate height) s fun _ _ => True :=
  .modify (h.pop fun _ ho => List.mem_of_mem_drop ho) rfl trivial

-- Terminators that read nothing.
theorem jump_tames : Tames cx (perform (.jump b)) s fun _ _ => True :=
  perform_tames h ⟨by simp [Op.data, Op.operands], trivial⟩

theorem exit_tames : Tames cx (perform .exit) s fun _ _ => True :=
  perform_tames h ⟨by simp [Op.data, Op.operands], trivial⟩

theorem branchOp_tames {lhs rhs : ValueId} {cond : Comparison} {yes no : BlockId}
    (hl : s.function.Plain lhs) (hr : s.function.Plain rhs) :
    Tames cx (perform (.branch lhs cond rhs yes no)) s fun _ _ => True :=
  perform_tames h
    ⟨List.forall_mem_cons.mpr ⟨hl, List.forall_mem_singleton.mpr hr⟩, trivial⟩

theorem ret_tames (hv : s.function.Plain v) : Tames cx (perform (.ret v)) s fun _ _ => True :=
  perform_tames h ⟨List.forall_mem_singleton.mpr hv, trivial⟩

theorem openRegion_tames {kind : RegionKind} (hr : Gathers s.function result) :
    Tames cx (openRegion kind continuation result) s fun _ _ => True :=
  .modify (h.setRegions (List.forall_mem_cons.mpr ⟨hr, h.regions⟩)) rfl trivial

theorem fill_tames {r : Result} (hr : Gathers s.function (some r)) (hv : s.function.Plain v) :
    Tames cx (fill r v) s fun r' t => t = s ∧ Gathers s.function (some r') := by
  refine (expectType_tames h).bind ?_
  rintro _ _ _ _ ⟨rfl, -⟩
  refine .get_bind (.pure h ⟨rfl, ?_⟩)
  rintro _ ⟨⟩
  exact List.forall_mem_append.mpr ⟨hr r rfl, List.forall_mem_singleton.mpr hv⟩

theorem popResult_tames {r : Result} (hr : Gathers s.function (some r)) :
    Tames cx (popResult region r) s fun r' t => Gathers t.function (some r') := by
  refine .get_bind (.ite (fun _ => .throw_bind) fun _ => ?_)
  split
  case h_1 v rest hs =>
    have ht : ({ s with stack := rest } : State).Tame cx :=
      h.pop fun o ho => hs ▸ List.mem_cons_of_mem _ ho
    have hv : s.function.Plain v := h.stack (.value v) (by simp [hs]) v (by simp [Operand.values])
    refine .set_bind rfl ((fill_tames ht hr hv).mono ?_)
    rintro _ _ ⟨rfl, hg⟩
    exact hg
  case h_2 => exact .throw

theorem closeRegion_tames (hr : Gathers s.function region.result) :
    Tames cx (closeRegion region continuation) s fun result t => Gathers t.function result := by
  refine .get_bind (.ite (fun _ => ?dead) fun _ => ?live)
  case dead =>
    refine (truncate_tames h).bind fun _ s₁ h₁ hb₁ _ => (exit_tames h₁).bind fun _ s₂ h₂ hb₂ _ => ?_
    exact .pure h₂ (hr.mono (hb₁.trans hb₂))
  case live =>
    have leave {t : State} (ht : t.Tame cx) {result : Option Result} (hg : Gathers t.function result) :
        Tames cx (do truncate region.height; perform (.jump continuation); return result) t
          fun result u => Gathers u.function result := by
      refine (truncate_tames ht).bind fun _ s₁ h₁ hb₁ _ => (jump_tames h₁).bind fun _ s₂ h₂ hb₂ _ => ?_
      exact .pure h₂ (hg.mono (hb₁.trans hb₂))
    cases he : region.result
    case none => exact leave h .none
    case some r =>
      rw [he] at hr
      refine .bind (.map (popResult_tames h hr)) fun result s₁ h₁ _ hg => leave h₁ hg

theorem resumeAt_tames : Tames cx (resumeAt region b) s fun _ _ => True :=
  (setBlock_tames h).bind fun _ _ h₁ _ _ => .modify ⟨h₁.values, h₁.stack, h₁.regions⟩ rfl trivial

theorem pushResult_tames {r : Result} (hr : Gathers s.function (some r)) :
    Tames cx (pushResult r) s fun _ _ => True := by
  refine .ite (fun _ => (const_tames h).bind fun _ _ h₁ _ hv => push_tames h₁ hv.1) fun _ => ?_
  refine (note_tames h).bind fun _ s₁ h₁ hb _ => define_push_tames h₁ rfl rfl ⟨?_, trivial⟩
  refine List.forall_mem_map.mpr fun i hi => hb.plain (hr r rfl i hi)

theorem branchTarget_tames : Tames cx (branchTarget opcode depth) s fun _ _ => True := by
  refine .get_bind (.ite (fun _ => .pure h trivial) fun _ => ?_)
  split
  case h_1 => exact .throw
  case h_2 r hr =>
    have leave {after : Option Result} (hg : Gathers s.function after) :
        Tames cx (do
          modify fun t : State =>
            { t with regions := t.regions.set depth { r.leave s.block with result := after } }
          return Target.block r.continuation) s fun _ _ => True := by
      refine .bind (.modify (P := fun _ _ => True) (h.setRegions fun q hq => ?_) rfl trivial)
        fun _ _ h₁ _ _ => .pure h₁ trivial
      rcases List.mem_or_eq_of_mem_set hq with hq | rfl
      exacts [h.gathers hq, hg]
    have hg : Gathers s.function r.result := h.gathers (List.mem_of_getElem? hr)
    split
    case h_1 => exact .pure h trivial
    case h_2 =>
      cases he : r.result
      case none => exact leave .none
      case some res =>
        rw [he] at hg
        refine (peekValue_tames h).bind ?_
        rintro v s _ _ ⟨rfl, hv⟩
        refine .bind (.map (Q := fun after t => t = s ∧ Gathers s.function after)
          (fill_tames h hg hv)) ?_
        rintro after _ _ _ ⟨rfl, hg⟩
        exact leave hg

theorem enterDeadBlock_tames : Tames cx enterDeadBlock s fun _ _ => True := by
  refine (newBlock_tames h).bind fun b s₁ h₁ _ _ => (setBlock_tames h₁).bind fun _ s₂ h₂ _ _ => ?_
  refine .get_bind ((truncate_tames h₂).bind fun _ s₃ h₃ _ _ => ?_)
  exact .modify ⟨h₃.values, h₃.stack, h₃.regions⟩ rfl trivial

theorem emitReturn_tames {type : Option Scalar} :
    Tames cx (emitReturn type opcode) s fun _ _ => True := by
  cases type
  case none => exact exit_tames h
  case some => exact (popTyped_tames h).bind fun _ _ h₁ _ hv => ret_tames h₁ hv.1

theorem emitReturnKeep_tames {type : Option Scalar} :
    Tames cx (emitReturnKeep type opcode) s fun _ _ => True := by
  cases type
  case none => exact exit_tames h
  case some =>
    refine (peekValue_tames h).bind ?_
    rintro v _ _ _ ⟨rfl, hv⟩
    refine (expectType_tames h).bind ?_
    rintro _ _ _ _ ⟨rfl, -⟩
    exact ret_tames h hv

theorem retargetAll_tames {sources : List BlockId} {old new : BlockId} :
    Tames cx (retargetAll sources old new) s fun _ _ => True := by
  induction sources generalizing s
  case nil => exact .pure h trivial
  case cons b sources ih =>
    refine .bind (P := fun _ _ => True) (.edit fun _ g hg => ?_) fun _ _ h₁ _ _ => ih h₁
    obtain ⟨ht, hb⟩ := h.retarget hg
    exact ⟨ht, hb, trivial⟩

theorem startElse_tames : Tames cx startElse s fun _ _ => True := by
  refine .get_bind ?_
  split
  case h_1 => exact .throw
  case h_2 region outer hr =>
    split
    case h_2 => exact .throw
    case h_1 breaks _ =>
      have hm : ∀ r ∈ outer, Gathers s.function r.result :=
        fun r hm => h.gathers (hr ▸ List.mem_cons_of_mem _ hm)
      have hg : Gathers s.function region.result := h.gathers (hr ▸ List.mem_cons_self)
      refine .set_bind rfl <| (newBlock_tames (h.setRegions hm)).bind fun next s₁ h₁ hb₁ _ => ?_
      refine (closeRegion_tames h₁ (hg.mono hb₁)).bind fun result s₂ h₂ _ hg₂ => ?_
      refine (retargetAll_tames h₂).bind fun _ s₃ h₃ hb₃ _ => ?_
      refine (resumeAt_tames h₃).bind fun _ s₄ h₄ hb₄ _ => ?_
      refine .modify (h₄.setRegions (List.forall_mem_cons.mpr ⟨?_, h₄.regions⟩)) rfl trivial
      exact hg₂.mono (hb₃.trans hb₄)

theorem close_tames : Tames cx close s fun _ _ => True := by
  refine .get_bind ?_
  split
  case h_1 =>
    rintro _ _ ⟨⟩
    exact ⟨⟨h.values, h.stack, h.regions⟩, .refl _, trivial⟩
  case h_2 region outer hr =>
    split
    case h_1 => exact .throw
    case h_2 =>
      have hm : ∀ r ∈ outer, Gathers s.function r.result :=
        fun r hm => h.gathers (hr ▸ List.mem_cons_of_mem _ hm)
      have hg : Gathers s.function region.result := h.gathers (hr ▸ List.mem_cons_self)
      refine .set_bind rfl <| (closeRegion_tames (h.setRegions hm) hg).bind fun result s₁ h₁ _ hg₁ => ?_
      refine (resumeAt_tames h₁).bind fun _ s₂ h₂ hb₂ _ => ?_
      cases result
      case none => exact .pure h₂ trivial
      case some => exact pushResult_tames h₂ (hg₁.mono hb₂)

theorem branch_tames : Tames cx (branch cx opcode depth) s fun _ _ => True := by
  refine .get_bind (.ite (fun _ => .pure h trivial) fun _ => ?_)
  refine (branchTarget_tames h).bind fun target s₁ h₁ _ _ => ?_
  cases target
  case block => exact (jump_tames h₁).bind fun _ _ h₂ _ _ => enterDeadBlock_tames h₂
  case body => exact (emitReturn_tames h₁).bind fun _ _ h₂ _ _ => enterDeadBlock_tames h₂

theorem branchIf_tames : Tames cx (branchIf cx opcode depth) s fun _ _ => True := by
  refine (popCondition_tames h).bind fun c s₁ h₁ _ hc => ?_
  obtain ⟨lhs, cond, rhs⟩ := c
  refine .get_bind (.ite (fun _ => .pure h₁ trivial) fun _ => ?_)
  refine (branchTarget_tames h₁).bind fun target s₂ h₂ hb₂ _ => ?_
  have hl := hb₂.plain hc.1
  have hr := hb₂.plain hc.2
  cases target
  case block =>
    refine (newBlock_tames h₂).bind fun next s₃ h₃ hb _ => ?_
    exact (branchOp_tames h₃ (hb.plain hl) (hb.plain hr)).bind fun _ _ h₄ _ _ => setBlock_tames h₄
  case body =>
    refine (newBlock_tames h₂).bind fun taken s₃ h₃ hb₃ _ => ?_
    refine (newBlock_tames h₃).bind fun next s₄ h₄ hb₄ _ => ?_
    have hb := hb₃.trans hb₄
    refine (branchOp_tames h₄ (hb.plain hl) (hb.plain hr)).bind fun _ s₅ h₅ _ _ => ?_
    refine (setBlock_tames h₅).bind fun _ s₆ h₆ _ _ => ?_
    exact (emitReturnKeep_tames h₆).bind fun _ _ h₇ _ _ => setBlock_tames h₇

theorem return_tames : Tames cx (return_ cx opcode) s fun _ _ => True :=
  .get_bind <| .ite (fun _ => .pure h trivial) fun _ =>
    (emitReturn_tames h).bind fun _ _ h₁ _ _ => enterDeadBlock_tames h₁

theorem startIf_tames {type : BlockType} : Tames cx (startIf opcode type) s fun _ _ => True := by
  refine (popCondition_tames h).bind fun c s₁ h₁ _ hc => ?_
  obtain ⟨lhs, cond, rhs⟩ := c
  refine (newBlock_tames h₁).bind fun inner s₂ h₂ hb₂ _ => ?_
  refine (newBlock_tames h₂).bind fun next s₃ h₃ hb₃ _ => ?_
  have hb := hb₂.trans hb₃
  refine (branchOp_tames h₃ (hb.plain hc.1) (hb.plain hc.2)).bind fun _ s₄ h₄ _ _ => ?_
  refine (setBlock_tames h₄).bind fun _ s₅ h₅ _ _ => .bind (.ofExcept h₅) fun result s₆ h₆ _ hr => ?_
  exact openRegion_tames h₆ (gathers_of_resultOf hr)

-- Every instruction keeps to the discipline.
theorem step_tames {i : Instruction} : Tames cx (step cx i) s fun _ _ => True := by
  cases i
  case block | loop =>
    refine .bind (.ofExcept h) fun result s₁ h₁ _ hr => (newBlock_tames h₁).bind fun inner s₂ h₂ _ _ => ?_
    refine (newBlock_tames h₂).bind fun next s₃ h₃ _ _ => (jump_tames h₃).bind fun _ s₄ h₄ _ _ => ?_
    exact (setBlock_tames h₄).bind fun _ _ h₅ _ _ => openRegion_tames h₅ (gathers_of_resultOf hr)
  case if_ => exact startIf_tames h
  case else_ => exact startElse_tames h
  case end_ => exact close_tames h
  case br => exact branch_tames h
  case brIf => exact branchIf_tames h
  case return_ => exact return_tames h
  all_goals exact step_inside_tames h trivial

-- And so does a sequence of them.
theorem lowerCode_tames {function : String} {total position : Nat} {code : List Instruction} :
    Tames cx (lowerCode cx function total position code) s fun _ _ => True := by
  induction code generalizing s position
  case nil => exact .pure h trivial
  case cons i code ih =>
    refine (note_tames h).bind fun _ s₁ h₁ _ _ => .get_bind (.ite (fun _ => .throw_bind) fun _ => ?_)
    exact (note_tames h₁).bind fun _ s₂ h₂ _ _ => (step_tames h₂).bind fun _ _ h₃ _ _ => ih h₃

theorem State.Concludes.tame (hc : s.Concludes cx t) : t.Tame cx ∧ s.function.Begins t.function := by
  cases hc
  case dead => exact ⟨h.emit ⟨by simp [Op.data, Op.operands], trivial⟩, .emit⟩
  case live u op hd hr =>
    have hu : u.Tame cx ∧ u.function = s.function := by
      rcases hr.popped with rfl | ⟨o, rest, hs, _, rfl⟩
      · exact ⟨h, rfl⟩
      · exact ⟨h.pop fun o ho => hs ▸ List.mem_cons_of_mem _ ho, rfl⟩
    obtain ⟨hu, hf⟩ := hu
    refine ⟨hu.emit ?_, hf ▸ .emit⟩
    cases hr.yields
    case nothing => exact ⟨by simp [Op.data, Op.operands], trivial⟩
    case value ty v _ hs _ =>
      have hv : s.function.Plain v :=
        h.stack (.value v) (List.mem_of_mem_head? hs) v (by simp [Operand.values])
      exact ⟨List.forall_mem_singleton.mpr (hf ▸ hv), trivial⟩

end Regions

end StackCompiler.Lowering.Direct
