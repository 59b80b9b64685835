import StackCompiler.Frame.Code
import StackCompiler.Proofs.Semantics.Machine

-- The code of a function hands back the registers and the memory that belong to its caller,
-- whichever registers it uses and however much stack it reserves.

namespace StackCompiler

open Machine

namespace Frame

-- What the body of a function must do when it is entered in the state `t`: come to its end with the
-- stack pointer as it was, without a write above the reserved stack and without a change to a
-- callee-saved register that the frame does not mark as used.
def Respects (f : Frame) (host : Host) (body : List Instruction) (t : State) : Prop :=
  ∃ u, run host body t = some (.finished u) ∧ u.rsp = t.rsp ∧
    (∀ x : Word, t.rsp.toNat + f.stackSize ≤ x.toNat → u.memory x = t.memory x) ∧
    ∀ r ∈ Register.calleeSaved, f.isUsed r = false → u.get r = t.get r

-- The registers on the stack while the body runs, the outermost first.
def saved (f : Frame) : List Register :=
  .rbp :: f.savedRegisters

def reserve (f : Frame) : List Instruction :=
  if 0 < f.stackSize then [.subImm .rsp f.stackSize] else []

def release (f : Frame) : List Instruction :=
  if 0 < f.stackSize then [.addImm .rsp f.stackSize] else []

theorem prologue_eq (f : Frame) :
    f.prologue = .label f.name :: (f.saved.map .push ++ (f.reserve ++ [.move .rbp .rsp])) := by
  simp [prologue, saved, reserve]

theorem epilogue_eq {f : Frame} {literals : List Instruction} (h : poolCode f.pool = .ok literals) :
    f.epilogue = .ok (f.release ++ f.savedRegisters.reverse.map .pop ++ [.pop .rbp, .ret]
      ++ literals) := by
  rw [epilogue, h]
  rfl

theorem code_eq {f : Frame} {literals : List Instruction} (h : poolCode f.pool = .ok literals)
    (body : List Instruction) :
    f.code body = .ok (.label f.name ::
      (f.saved.map .push ++ (f.reserve ++ .move .rbp .rsp :: (body ++ f.release))
        ++ f.saved.reverse.map .pop) ++ .ret :: literals) := by
  rw [code, epilogue_eq h, prologue_eq]
  simp [saved, bind, Except.bind, pure, Except.pure]

theorem exists_poolCode {pool : List (String × PoolValue)}
    (h : ∀ entry ∈ pool, ∃ bytes, entry.2 = .bytes bytes) : ∃ literals, poolCode pool = .ok literals := by
  induction pool
  case nil => exact ⟨[], rfl⟩
  case cons entry pool ih =>
    obtain ⟨label, value⟩ := entry
    obtain ⟨bytes, rfl⟩ := h (label, value) List.mem_cons_self
    obtain ⟨literals, rest⟩ := ih fun entry member => h entry (List.mem_cons_of_mem _ member)
    refine ⟨.label label :: bytes.map .byte ++ literals, ?_⟩
    rw [poolCode, rest]
    rfl

theorem isGeneral_of_calleeSaved : ∀ r ∈ .rbp :: Register.calleeSaved, r.IsGeneral ∧ r ≠ .rsp := by
  decide

theorem mem_of_mem_saved {f : Frame} {r : Register} (h : r ∈ f.saved) : r ∈ .rbp :: Register.calleeSaved := by
  rw [saved, savedRegisters, List.mem_cons, List.mem_filter] at h
  exact List.mem_cons.mpr (h.imp_right And.left)

theorem isGeneral_of_mem_saved {f : Frame} : ∀ r ∈ f.saved, r.IsGeneral ∧ r ≠ .rsp :=
  fun r hr => isGeneral_of_calleeSaved r (mem_of_mem_saved hr)

variable {f : Frame} {host : Host} {body code : List Instruction} {s t u : State}

-- The state in which the body is entered when the stack pointer of `t` is below the saved registers.
def enter (f : Frame) (t : State) : State :=
  (t.set .rsp (t.rsp - BitVec.ofNat 64 f.stackSize)).set .rbp (t.rsp - BitVec.ofNat 64 f.stackSize)

theorem rsp_enter : (f.enter t).rsp = t.rsp - BitVec.ofNat 64 f.stackSize := by
  rw [enter, State.rsp_set_of_ne (by decide), State.rsp_set_rsp]

theorem toNat_rsp_enter (room : f.stackSize ≤ t.rsp.toNat) :
    (f.enter t).rsp.toNat + f.stackSize = t.rsp.toNat := by
  have size : (BitVec.ofNat 64 f.stackSize).toNat = f.stackSize := by
    rw [BitVec.toNat_ofNat, Nat.mod_eq_of_lt]
    exact Nat.lt_of_le_of_lt room t.rsp.isLt
  have le : BitVec.ofNat 64 f.stackSize ≤ t.rsp := BitVec.le_def.mpr (size.symm ▸ room)
  rw [rsp_enter, BitVec.toNat_sub_of_le le, size]
  omega

theorem run_enter :
    run host (f.reserve ++ .move .rbp .rsp :: code) t = run host code (f.enter t) := by
  have reserved : run host f.reserve t
      = some (.finished (t.set .rsp (t.rsp - BitVec.ofNat 64 f.stackSize))) := by
    rw [reserve]
    split
    case isTrue => rfl
    case isFalse h =>
      have zero : f.stackSize = 0 := by omega
      rw [zero, BitVec.sub_zero, State.rsp, State.set_get_self]
      rfl
  rw [run_append reserved, run_cons (t := f.enter t)]
  have pointer := State.rsp_set_rsp (s := t) (v := t.rsp - BitVec.ofNat 64 f.stackSize)
  rw [State.rsp] at pointer
  rw [Instruction.execute, if_pos (by decide), pointer]
  rfl

theorem run_release :
    run host f.release u = some (.finished (u.set .rsp (u.rsp + BitVec.ofNat 64 f.stackSize))) := by
  rw [release]
  split
  case isTrue => rfl
  case isFalse h =>
    have zero : f.stackSize = 0 := by omega
    rw [zero, BitVec.add_zero, State.rsp, State.set_get_self]
    rfl

theorem run_prologue :
    run host f.prologue s = some (.finished (f.enter (s.pushAll f.saved))) := by
  have pushed : run host (f.saved.map .push) s = some (.finished (s.pushAll f.saved)) :=
    run_push fun r hr => (isGeneral_of_mem_saved r hr).left
  rw [prologue_eq, run_cons (t := s) rfl, run_append pushed, run_enter]
  rfl

-- Between the saving of the registers and their restoring, the stack pointer comes back to where it
-- was and only memory below it is written. All else is as the body leaves it.
theorem exists_run_inner (room : f.stackSize ≤ t.rsp.toNat) (respects : f.Respects host body (f.enter t)) :
    ∃ u, run host body (f.enter t) = some (.finished u) ∧
      let v := u.set .rsp (u.rsp + BitVec.ofNat 64 f.stackSize)
      run host (f.reserve ++ .move .rbp .rsp :: (body ++ f.release)) t = some (.finished v) ∧
        t.Balanced v ∧ ∀ r ∈ Register.calleeSaved, f.isUsed r = false → v.get r = t.get r := by
  obtain ⟨u, hu, rsp, memory, kept⟩ := respects
  refine ⟨u, hu, ?run, ⟨?rsp, ?memory⟩, ?kept⟩
  case run => rw [run_enter, run_append hu, run_release]
  case rsp => rw [State.rsp_set_rsp, rsp, rsp_enter, BitVec.sub_add_cancel]
  case memory =>
    intro x hx
    exact memory x (by rw [toNat_rsp_enter room]; exact hx)
  case kept =>
    intro r hr unused
    have not_rsp : r.id ≠ Register.rsp.id ∧ r.id ≠ Register.rbp.id := by
      clear unused
      revert r
      decide
    rw [State.get_set_of_ne not_rsp.left, kept r hr unused, enter, State.get_set_of_ne not_rsp.right,
      State.get_set_of_ne not_rsp.left]

-- A function whose body respects its frame comes back to its caller, with the stack pointer above
-- the return address, the callee-saved registers and the memory of the caller as they were, all other
-- registers and all memory as the body left them, and without reaching its literal pool. There is room
-- on the stack for what the frame saves and reserves, and the return address lies within the address
-- space.
theorem run_code_restores_caller (f : Frame) (host : Host) (body : List Instruction) (s : State)
    (literal : ∀ entry ∈ f.pool, ∃ bytes, entry.2 = .bytes bytes)
    (room : 8 * (f.savedRegisters.length + 1) + f.stackSize ≤ s.rsp.toNat)
    (inside : s.rsp.toNat + 8 ≤ 2 ^ 64)
    (respects : ∀ t, run host f.prologue s = some (.finished t) → f.Respects host body t) :
    ∃ code literals t, f.code body = .ok code ∧ poolCode f.pool = .ok literals ∧
      run host code s = some (.returned s.top t literals) ∧
      t.rsp = s.rsp + 8 ∧
      (∀ r ∈ .rbp :: Register.calleeSaved, t.get r = s.get r) ∧
      (∀ x : Word, s.rsp.toNat ≤ x.toNat → t.memory x = s.memory x) ∧
      ∃ start u, run host f.prologue s = some (.finished start) ∧
        run host body start = some (.finished u) ∧
        (∀ r, r.IsGeneral → r ∉ .rsp :: .rbp :: Register.calleeSaved → t.get r = u.get r) ∧
        t.vector = u.vector ∧ t.memory = u.memory := by
  obtain ⟨literals, pool⟩ := exists_poolCode literal
  have length : f.saved.length = f.savedRegisters.length + 1 := rfl
  have lower := State.toNat_rsp_pushAll (s := s) (l := f.saved) (by omega)
  obtain ⟨u, hu, inner, balanced, kept⟩ := exists_run_inner (by omega) (respects _ run_prologue)
  obtain ⟨v, hv, restores⟩ := run_saved isGeneral_of_mem_saved (by omega) inner balanced
  refine ⟨_, literals, v.drop, code_eq pool body, pool, ?run, ?rsp, ?restored, ?memory,
    _, u, run_prologue, hu, ?others, restores.vector, restores.memory⟩
  case run =>
    have top : v.top = s.top := by
      rw [State.top, State.top, restores.balanced.rsp]
      exact Memory.load_congr inside restores.balanced.memory
    rw [List.cons_append, run_cons (t := s) rfl, run_append hv, ← top]
    rfl
  case rsp => rw [State.drop, State.rsp_set_rsp, restores.balanced.rsp]
  case restored =>
    intro r hr
    obtain ⟨general, ne⟩ := isGeneral_of_calleeSaved r hr
    have not_rsp : r.id ≠ Register.rsp.id := general.id_ne (by decide) ne
    rw [State.drop, State.get_set_of_ne not_rsp]
    by_cases member : r ∈ f.saved
    · exact restores.restored r member
    · have unused : r ∈ Register.calleeSaved ∧ f.isUsed r = false := by
        simp only [saved, savedRegisters, List.mem_cons, List.mem_filter, not_or, not_and] at member
        have callee := (List.mem_cons.mp hr).resolve_left member.left
        exact ⟨callee, by simpa using member.right callee⟩
      rw [restores.others r member general ne, kept r unused.left unused.right,
        State.get_pushAll_of_ne not_rsp]
  case memory =>
    intro x hx
    exact restores.balanced.memory x hx
  case others =>
    intro r general outside
    rw [List.mem_cons, not_or] at outside
    have not_rsp : r.id ≠ Register.rsp.id := general.id_ne (by decide) outside.left
    have member : r ∉ f.saved := fun hr => outside.right (mem_of_mem_saved hr)
    rw [State.drop, State.get_set_of_ne not_rsp, restores.others r member general outside.left,
      State.get_set_of_ne not_rsp]

-- A function that uses one callee-saved register and two words of stack, with a constant behind it.
def spilling : Frame where
  name := "f"
  arguments := []
  liveIn := .empty
  result := none
  liveOut := .empty
  used := RegisterSet.empty.insert .rbx
  stackSize := 16
  pool := [("f_literal_0", .bytes [1, 2])]

-- Every call leaves a word in the stack that its caller reserved.
def scribbling : Host where
  call _ s := some ({ s with memory := s.memory.store s.rsp 7 }.set .rax 1)
  raw _ _ := none

theorem respects_spilling (t : State) :
    spilling.Respects scribbling [.move .rbx .rsp, .move .rbp .rbx, .call "g"] t := by
  refine ⟨_, rfl, rfl, ?memory, ?kept⟩
  case memory =>
    intro x hx
    apply Memory.store_apply_of_le
    exact Nat.le_of_add_right_le (k := 8) hx
  case kept =>
    intro r hr unused
    have untouched : r.id ≠ Register.rax.id ∧ r.id ≠ Register.rbp.id ∧ r.id ≠ Register.rbx.id := by
      revert r
      decide
    obtain ⟨rax, rbp, rbx⟩ := untouched
    exact (State.get_set_of_ne rax).trans
      ((State.get_set_of_ne rbp).trans (State.get_set_of_ne rbx))

theorem run_code_restores_caller_spilling :
    let s : State := { general := fun _ => 0x1000, vector := fun _ => 0, memory := fun _ => 0 }
    let body : List Instruction := [.move .rbx .rsp, .move .rbp .rbx, .call "g"]
    (∀ t, spilling.Respects scribbling body t) ∧
      ∃ code literals t, spilling.code body = .ok code ∧ poolCode spilling.pool = .ok literals ∧
        run scribbling code s = some (.returned s.top t literals) ∧
        t.rsp = s.rsp + 8 ∧
        (∀ r ∈ .rbp :: Register.calleeSaved, t.get r = s.get r) ∧
        (∀ x : Word, s.rsp.toNat ≤ x.toNat → t.memory x = s.memory x) ∧ t.get .rax = 1 := by
  intro s body
  obtain ⟨code, literals, t, hc, hl, hr, hrsp, saved, memory, start, u, -, hu, others, -⟩ :=
    run_code_restores_caller spilling scribbling body s (by simp [spilling]) (by decide) (by decide)
      fun t _ => respects_spilling t
  refine ⟨respects_spilling, code, literals, t, hc, hl, hr, hrsp, saved, memory, ?_⟩
  rw [others .rax (by decide) (by decide)]
  cases hu
  rfl

end Frame

end StackCompiler
