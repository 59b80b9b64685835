import StackCompiler.Proofs.Machine.Emission
import StackCompiler.Proofs.Semantics.Machine
import StackCompiler.Frame.Code

-- Registers that are live across a call come through it, whatever the register file went through
-- before and in whatever order they are saved.

namespace StackCompiler

open Machine

-- A register of either bank holds the same.
def Machine.State.SameAt (s t : State) (r : Register) : Prop :=
  (r.IsGeneral → t.get r = s.get r) ∧ (r.IsVector → t.vector r.id = s.vector r.id)

namespace Frame

variable {f : Frame} {site : Ssa.ValueId} {callee : String} {dest : Option Register}
variable {live : List Register} {code : List Instruction}

-- What a call must do for the registers in `live`, all but the one that takes its result.
structure Protects (f : Frame) (site : Ssa.ValueId) (callee : String) (dest : Option Register)
    (live : List Register) : Prop where
  -- Only general purpose registers can be saved.
  fails_iff : (∃ cause, f.callCode site callee dest = .error (.unsupported cause)) ↔
    ∃ r ∈ live, some r ≠ dest ∧ r.bank ≠ Register.generalBank
  succeeds : (∀ r ∈ live, some r ≠ dest → r.bank = Register.generalBank) →
    ∃ code, f.callCode site callee dest = .ok code
  -- There is no machine code for registers that the machine does not have.
  unencodable : ∀ code, f.callCode site callee dest = .ok code →
    (∃ r ∈ live, some r ≠ dest ∧ ¬r.IsGeneral) →
    ∀ i, ∃ r k, Image.encode code i = .error (.invalidRegister r) k
  -- The callee may change what it likes, as long as it restores the stack pointer and keeps to the
  -- memory below it. There is room on the stack for what is saved.
  survives : ∀ code, f.callCode site callee dest = .ok code →
    (∀ r ∈ live, some r ≠ dest → r.IsGeneral) → (∀ r ∈ live, r ≠ .rsp) → dest ≠ some .rsp →
    ∀ (host : Host) (s u : State), 8 * (f.savedOverCall site dest).length ≤ s.rsp.toNat →
      host.call callee (s.pushAll (f.savedOverCall site dest)) = some u →
      (s.pushAll (f.savedOverCall site dest)).Balanced u →
      ∃ v, run host code s = some (.finished v) ∧ s.Balanced v ∧
        (∀ r ∈ live, some r ≠ dest → v.get r = s.get r) ∧ ∀ r, dest = some r → u.SameAt v r

-- A call between the pushes and the pops of registers.
def bracket (saved : List Register) (callee : String) : List Instruction :=
  saved.map .push ++ [.call callee] ++ saved.reverse.map .pop

theorem callCode_cases (f : Frame) (site : Ssa.ValueId) (callee : String) (dest : Option Register) :
    (∃ r ∈ f.savedOverCall site dest, r.bank ≠ Register.generalBank ∧
      f.callCode site callee dest = .error (.unsupported (.callerSave r callee))) ∨
    (∀ r ∈ f.savedOverCall site dest, r.bank = Register.generalBank) ∧
      f.callCode site callee dest = .ok (bracket (f.savedOverCall site dest) callee) := by
  rw [callCode]
  split
  case h_1 r hr => exact .inl ⟨r, List.mem_of_find?_eq_some hr, by simpa using List.find?_some hr, rfl⟩
  case h_2 hn => exact .inr ⟨by simpa using hn, rfl⟩

theorem eq_bracket (h : f.callCode site callee dest = .ok code) :
    code = bracket (f.savedOverCall site dest) callee := by
  rcases callCode_cases f site callee dest with ⟨r, -, -, hr⟩ | ⟨-, hb⟩
  · cases hr.symm.trans h
  · exact (Except.ok.inj (hb.symm.trans h)).symm

theorem generalNumber_of_not_isGeneral {r : Register} (h : ¬r.IsGeneral) :
    generalNumber r = .error (.invalidRegister r) :=
  if_neg h

-- The first push of a register that does not exist stops the encoding.
theorem steps_push {saved : List Register} (h : ∃ r ∈ saved, ¬r.IsGeneral) (i : Image)
    (code : List Instruction) :
    ∃ r, i.steps (saved.map .push ++ code) = .error (.invalidRegister r) := by
  induction saved generalizing i
  case nil => simp at h
  case cons q saved ih =>
    by_cases hq : q.IsGeneral
    case pos =>
      obtain ⟨r, hr, hn⟩ := h
      have hr : r ∈ saved := (List.mem_cons.mp hr).resolve_left fun he => hn (he ▸ hq)
      have number : generalNumber q = .ok q.id := if_pos hq
      obtain ⟨r, hr⟩ := ih ⟨r, hr, hn⟩ (i.add (.bytes (Encoding.push q.id)))
      refine ⟨r, ?_⟩
      rw [List.map_cons, List.cons_append, Image.steps, Image.step_of_isPlain rfl,
        Instruction.encoding, number]
      exact hr
    case neg =>
      refine ⟨q, ?_⟩
      rw [List.map_cons, List.cons_append, Image.steps, Image.step_of_isPlain rfl,
        Instruction.encoding, generalNumber_of_not_isGeneral hq]
      rfl

theorem encode_bracket {saved : List Register} (h : ∃ r ∈ saved, ¬r.IsGeneral) (i : Image) :
    ∃ r k, Image.encode (bracket saved callee) i = .error (.invalidRegister r) k := by
  obtain ⟨r, hr⟩ := steps_push h (i.mentionAll (Image.labelsOf (bracket saved callee)))
    ([.call callee] ++ saved.reverse.map .pop)
  rw [← List.append_assoc] at hr
  have after := Image.after_encode.trans hr
  rw [Image.after] at after
  split at after
  case h_1 => cases after
  case h_2 k he =>
    cases after
    exact ⟨r, k, he⟩

theorem protects_of_mem_iff
    (h : ∀ r, r ∈ f.savedOverCall site dest ↔ r ∈ live ∧ some r ≠ dest) :
    f.Protects site callee dest live where
  fails_iff := by
    rcases callCode_cases f site callee dest with ⟨r, hr, bank, fails⟩ | ⟨banks, succeeds⟩
    case inl =>
      obtain ⟨hl, hd⟩ := (h r).mp hr
      exact iff_of_true ⟨_, fails⟩ ⟨r, hl, hd, bank⟩
    case inr =>
      refine iff_of_false ?_ ?_
      · rintro ⟨cause, hc⟩
        cases succeeds.symm.trans hc
      · rintro ⟨r, hl, hd, bank⟩
        exact bank (banks r ((h r).mpr ⟨hl, hd⟩))
  succeeds banks := by
    rcases callCode_cases f site callee dest with ⟨r, hr, bank, -⟩ | ⟨-, succeeds⟩
    case inl =>
      obtain ⟨hl, hd⟩ := (h r).mp hr
      exact absurd (banks r hl hd) bank
    case inr => exact ⟨_, succeeds⟩
  unencodable code hc missing i := by
    obtain ⟨r, hl, hd, hr⟩ := missing
    rw [eq_bracket hc]
    exact encode_bracket ⟨r, (h r).mpr ⟨hl, hd⟩, hr⟩ i
  survives code hc general not_rsp dest_ne host s u room called balanced := by
    have regs : ∀ r ∈ f.savedOverCall site dest, r.IsGeneral ∧ r ≠ .rsp := by
      intro r hr
      obtain ⟨hl, hd⟩ := (h r).mp hr
      exact ⟨general r hl hd, not_rsp r hl⟩
    have inner : run host [.call callee] (s.pushAll (f.savedOverCall site dest)) = some (.finished u) :=
      run_cons called
    obtain ⟨v, hv, restores⟩ := run_saved regs room inner balanced
    rw [eq_bracket hc]
    refine ⟨v, hv, restores.balanced, fun r hl hd => restores.restored r ((h r).mpr ⟨hl, hd⟩), ?_⟩
    intro r hr
    refine ⟨fun general => restores.others r ?_ general ?_, fun _ => congrFun restores.vector r.id⟩
    · exact fun hs => ((h r).mp hs).right hr.symm
    · exact fun he => dest_ne (he ▸ hr)

theorem liveOverCall_setLiveOver : (f.setLiveOver site live).liveOverCall site = live := by
  simp [liveOverCall, setLiveOver]

theorem liveOverCall_setLiveOver_of_ne {other : Ssa.ValueId} (h : other ≠ site) :
    (f.setLiveOver other live).liveOverCall site = f.liveOverCall site := by
  rw [liveOverCall, setLiveOver, List.lookup_cons, beq_eq_false_iff_ne.mpr h.symm]
  rfl

-- Takes down calls, one after the other, each with the register file of its moment.
def recordCalls (f : Frame) (records : List (RegisterFile × Ssa.ValueId × Option Register)) : Frame :=
  records.foldl (fun f (regs, site, dest) => f.recordCall regs site dest) f

theorem liveOverCall_recordCalls {records : List (RegisterFile × Ssa.ValueId × Option Register)}
    (h : ∀ record ∈ records, record.2.1 ≠ site) :
    (f.recordCalls records).liveOverCall site = f.liveOverCall site := by
  induction records generalizing f
  case nil => rfl
  case cons record records ih =>
    have first : record.2.1 ≠ site := h record List.mem_cons_self
    refine (ih fun r hr => h r (List.mem_cons_of_mem _ hr)).trans ?_
    exact liveOverCall_setLiveOver_of_ne first

theorem savedOverCall_recordCalls (f : Frame) (regs : RegisterFile) (dest : Option Register)
    {records : List (RegisterFile × Ssa.ValueId × Option Register)}
    (h : ∀ record ∈ records, record.2.1 ≠ site) :
    ((f.recordCall regs site dest).recordCalls records).savedOverCall site dest = regs.liveAcross dest := by
  rw [savedOverCall, liveOverCall_recordCalls h, recordCall, liveOverCall_setLiveOver,
    RegisterFile.liveAcross, List.filter_filter]
  simp

-- The registers that are live when a call is taken down come through it, however many other calls
-- are taken down before its code is made. So do the registers of any other list, in any order and
-- however often they stand in it.
theorem recordCall_protects (f : Frame) (regs : RegisterFile) (site : Ssa.ValueId) (callee : String)
    (dest : Option Register) (records : List (RegisterFile × Ssa.ValueId × Option Register))
    (others : ∀ record ∈ records, record.2.1 ≠ site) :
    ((f.recordCall regs site dest).recordCalls records).Protects site callee dest regs.liveRegisters ∧
    ∀ live, (f.setLiveOver site live).Protects site callee dest live := by
  constructor
  case left =>
    apply protects_of_mem_iff
    intro r
    rw [savedOverCall_recordCalls f regs dest others, RegisterFile.liveAcross]
    simp
  case right =>
    intro live
    apply protects_of_mem_iff
    intro r
    rw [savedOverCall, liveOverCall_setLiveOver]
    simp

-- A register that is handed out again goes to the end of the live ones.
def reallocated : RegisterFile.Request Unit := do
  let first ← RegisterFile.allocate .reg64 ⟨0⟩
  let _ ← RegisterFile.allocate .reg64 ⟨1⟩
  RegisterFile.allocateFixed .rax ⟨2⟩
  RegisterFile.free first
  let _ ← RegisterFile.allocate .reg64 ⟨3⟩

-- Every call gives one and leaves nothing in the registers that it may use.
def clobbering : Host where
  call _ s := some (((s.set .rbx 0).set .rdx 0).set .rax 1)
  raw _ _ := none

theorem recordCall_protects_reallocated : ∃ regs, reallocated .empty = .ok () regs ∧
    regs.liveRegisters = [.rdx, .rax, .rbx] ∧ ∃ f : Frame, Frame.ofSignature "f" [] none = .ok f ∧
    let g := (f.recordCall regs ⟨7⟩ (some .rax)).recordCalls [(.empty, ⟨8⟩, none)]
    g.Protects ⟨7⟩ "g" (some .rax) regs.liveRegisters ∧
    ∃ code v, g.callCode ⟨7⟩ "g" (some .rax) = .ok code ∧
      run clobbering code ⟨fun _ => 0x1000, fun _ => 0, fun _ => 0⟩ = some (.finished v) ∧
      v.rsp = 0x1000 ∧ v.get .rdx = 0x1000 ∧ v.get .rbx = 0x1000 ∧ v.get .rax = 1 := by
  obtain ⟨regs, allocated, live⟩ : ∃ regs, reallocated .empty = .ok () regs ∧
      regs.liveRegisters = [.rdx, .rax, .rbx] := ⟨_, rfl, by decide⟩
  obtain ⟨f, hf⟩ : ∃ f, Frame.ofSignature "f" [] none = .ok f := ⟨_, rfl⟩
  have other : ∀ record ∈ [(RegisterFile.empty, (⟨8⟩ : Ssa.ValueId), (none : Option Register))],
      record.2.1 ≠ ⟨7⟩ := by decide
  have protects := (recordCall_protects f regs ⟨7⟩ "g" (some .rax) _ other).left
  have saved := savedOverCall_recordCalls f regs (some .rax) other
  rw [RegisterFile.liveAcross, live] at saved
  refine ⟨regs, allocated, live, f, hf, protects, ?_⟩
  rw [live] at protects
  obtain ⟨code, hc⟩ := protects.succeeds (by decide)
  obtain ⟨v, hv, balanced, restored, same⟩ := protects.survives code hc (by decide) (by decide)
    (by decide) clobbering ⟨fun _ => 0x1000, fun _ => 0, fun _ => 0⟩ _ (by rw [saved]; decide) rfl
    ⟨rfl, fun _ _ => rfl⟩
  refine ⟨code, v, hc, hv, balanced.rsp, ?rdx, ?rbx, ?rax⟩
  case rdx => exact restored .rdx (by decide) (by decide)
  case rbx => exact restored .rbx (by decide) (by decide)
  case rax => exact (same .rax rfl).left (by decide)

end Frame

end StackCompiler
