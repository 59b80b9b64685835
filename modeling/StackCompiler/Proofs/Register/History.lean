import StackCompiler.Proofs.Frame.CalleeSave
import StackCompiler.Proofs.Register.Enumeration
import Mathlib.Data.List.Count

-- A register file never hands out a register that is live and never forgets one that it has handed
-- out, whatever calls are made to it.

namespace StackCompiler

open Machine (Instruction)

namespace Frame

variable {f : Frame} {r : Register}

theorem used_foldl_markUsed {regs : List Register} :
    (regs.foldl markUsed f).used = regs.foldl RegisterSet.insert f.used := by
  induction regs generalizing f
  case nil => rfl
  case cons r regs ih => exact ih

theorem isUsed_commit {regs : RegisterFile} :
    (f.commit regs).isUsed r = true ↔ f.isUsed r = true ∨ regs.used.contains r = true := by
  rw [commit, isUsed, used_foldl_markUsed, RegisterSet.contains_foldl_insert,
    RegisterSet.mem_toList_iff]
  exact or_congr_right (and_iff_left_of_imp RegisterSet.isTracked_of_contains)

theorem pool_commit {regs : RegisterFile} : (f.commit regs).pool = f.pool := by
  rw [commit]
  induction regs.used.toList generalizing f
  case nil => rfl
  case cons r rs ih => exact ih

theorem nodup_saved : f.saved.Nodup := by
  have all : (.rbp :: Register.calleeSaved).Nodup := by decide
  exact all.sublist (List.Sublist.cons_cons _ List.filter_sublist)

theorem mem_saved_of_isUsed (hr : r ∈ Register.calleeSaved) (h : f.isUsed r = true) :
    r ∈ f.saved :=
  List.mem_cons_of_mem _ (List.mem_filter.mpr ⟨hr, h⟩)

theorem count_push_prologue (h : r ∈ f.saved) : f.prologue.count (.push r) = 1 := by
  have rest : (f.reserve ++ [Instruction.move .rbp .rsp]).count (.push r) = 0 := by
    rw [reserve]
    split <;> simp
  rw [prologue_eq, List.count_cons_of_ne (by simp), List.count_append, rest,
    List.count_map_of_injective _ _ (fun _ _ e => Instruction.push.inj e)]
  exact List.count_eq_one_of_mem nodup_saved h

theorem count_pop_poolCode {pool : List (String × PoolValue)} {literals : List Instruction}
    (h : poolCode pool = .ok literals) : literals.count (.pop r) = 0 := by
  induction pool generalizing literals
  case nil =>
    cases h
    rfl
  case cons entry pool ih =>
    obtain ⟨label, value⟩ := entry
    cases value
    case bytes bytes =>
      rw [poolCode] at h
      cases hp : poolCode pool
      case error => simp [hp, bind, Except.bind] at h
      case ok code =>
        rw [hp] at h
        cases h
        rw [List.cons_append, List.count_cons_of_ne (by simp), List.count_append, ih hp,
          List.count_eq_zero.mpr (by simp)]
    all_goals simp [poolCode] at h

theorem count_pop_epilogue (h : r ∈ f.saved)
    (literal : ∀ entry ∈ f.pool, ∃ bytes, entry.2 = .bytes bytes) :
    ∃ code, f.epilogue = .ok code ∧ code.count (.pop r) = 1 := by
  obtain ⟨literals, hl⟩ := exists_poolCode literal
  refine ⟨_, epilogue_eq hl, ?_⟩
  have release : f.release.count (.pop r) = 0 := by
    rw [Frame.release]
    split <;> simp
  have pops : (f.savedRegisters.reverse.map .pop ++ [.pop .rbp, .ret] : List Instruction)
      = f.saved.reverse.map .pop ++ [.ret] := by
    simp [saved]
  rw [List.append_assoc f.release, pops, List.count_append, List.count_append, List.count_append,
    release, count_pop_poolCode hl,
    List.count_map_of_injective _ _ (fun _ _ e => Instruction.pop.inj e), List.count_reverse,
    List.count_eq_one_of_mem nodup_saved h]
  rfl

end Frame

namespace RegisterFile

inductive Call where
  | allocate (c : RegisterClass) (owner : Ssa.ValueId)
  | allocateFixed (r : Register) (owner : Ssa.ValueId)
  | free (r : Register)
  | freeOwner (owner : Ssa.ValueId)
deriving DecidableEq, Repr

-- A call, answered with the register that it hands out.
def respond : Call → Request (Option Register)
  | .allocate c owner => do return some (← allocate c owner)
  | .allocateFixed r owner => do
    allocateFixed r owner
    return some r
  | .free r => do
    free r
    return none
  | .freeOwner owner => do
    modify (·.freeOwner owner)
    return none

-- The file after calls, some of which may have failed.
def run (f : RegisterFile) : List Call → RegisterFile
  | [] => f
  | call :: calls =>
    match respond call f with
    | .ok _ g | .error _ g => g.run calls

-- The registers that a sequence of calls hands out, the first ones first.
def handedOut (f : RegisterFile) : List Call → List Register
  | [] => []
  | call :: calls =>
    match respond call f with
    | .ok (some r) g => r :: g.handedOut calls
    | .ok none g | .error _ g => g.handedOut calls

variable {f g : RegisterFile} {r q : Register} {c : RegisterClass} {owner : Ssa.ValueId}
  {cause : AllocationError} {call : Call} {calls : List Call}

theorem isLive_iff : f.isLive r = true ↔ r ∈ f.liveRegisters := by
  rw [isLive, List.contains_iff_mem]

theorem allocate_eq : allocate c owner f = match c.registers.find? (!f.isLive ·) with
    | some r => .ok r (f.assign r owner)
    | none => .error (.noneFree c.name) f := by
  change (match c.registers.find? (!f.isLive ·) with
    | some r => do set (f.assign r owner); return r
    | none => throw (.noneFree c.name) : Request Register) f = _
  cases c.registers.find? (!f.isLive ·) <;> rfl

theorem allocate_eq_ok_iff : allocate c owner f = .ok r g ↔
    (r ∉ f.liveRegisters ∧
      ∃ before after, c.registers = before ++ r :: after ∧ ∀ q ∈ before, q ∈ f.liveRegisters) ∧
    g = f.assign r owner := by
  have found : c.registers.find? (!f.isLive ·) = some r ↔ r ∉ f.liveRegisters ∧
      ∃ before after, c.registers = before ++ r :: after ∧ ∀ q ∈ before, q ∈ f.liveRegisters := by
    rw [List.find?_eq_some_iff_append]
    simp [← isLive_iff]
  rw [← found, allocate_eq]
  split
  case h_1 q hq =>
    rw [hq]
    simp only [EStateM.Result.ok.injEq, Option.some.injEq]
    constructor
    · rintro ⟨rfl, rfl⟩
      exact ⟨rfl, rfl⟩
    · rintro ⟨rfl, rfl⟩
      exact ⟨rfl, rfl⟩
  case h_2 hq => simp [hq]

theorem allocate_eq_error_iff : allocate c owner f = .error cause g ↔
    (∀ r ∈ c.registers, r ∈ f.liveRegisters) ∧ cause = .noneFree c.name ∧ g = f := by
  have all : c.registers.find? (!f.isLive ·) = none ↔ ∀ r ∈ c.registers, r ∈ f.liveRegisters := by
    rw [List.find?_eq_none]
    simp [← isLive_iff]
  rw [← all, allocate_eq]
  split
  case h_1 q hq => simp [hq]
  case h_2 hq => simp [hq, eq_comm]

theorem allocateFixed_eq : allocateFixed r owner f =
    if f.isLive r then .error (.inUse r) f else .ok () (f.assign r owner) := by
  change (do
    if f.isLive r then throw (.inUse r)
    set (f.assign r owner) : Request Unit) f = _
  split <;> rfl

theorem allocateFixed_eq_ok_iff : allocateFixed r owner f = .ok () g ↔
    r ∉ f.liveRegisters ∧ g = f.assign r owner := by
  rw [← isLive_iff, allocateFixed_eq]
  split
  case isTrue h => simp [h]
  case isFalse h => simp [h, eq_comm]

theorem allocateFixed_eq_error_iff : allocateFixed r owner f = .error cause g ↔
    r ∈ f.liveRegisters ∧ cause = .inUse r ∧ g = f := by
  rw [← isLive_iff, allocateFixed_eq]
  split
  case isTrue h => simp [h, eq_comm]
  case isFalse h => simp [h]

theorem free_eq : free r f =
    if f.isLive r then .ok () { f with live := f.live.eraseP (·.1 == r) }
    else .error (.notAllocated r) f := by
  change (do
    if !f.isLive r then throw (.notAllocated r)
    set { f with live := f.live.eraseP (·.1 == r) } : Request Unit) f = _
  cases f.isLive r <;> rfl

-- A register is live once, so to free it is to leave it out.
theorem eraseP_eq_filter {live : List (Register × Ssa.ValueId)} (h : (live.map Prod.fst).Nodup) :
    live.eraseP (·.1 == r) = live.filter (·.1 != r) := by
  induction live
  case nil => rfl
  case cons entry live ih =>
    obtain ⟨hout, hlive⟩ := List.nodup_cons.mp h
    by_cases e : entry.1 = r
    · have others : live.filter (·.1 != r) = live := by
        rw [List.filter_eq_self]
        intro other ho
        have ne : other.1 ≠ r := fun eq => hout (e ▸ eq ▸ List.mem_map_of_mem ho)
        simpa using ne
      simp [e, others]
    · simp [e, ih hlive]

theorem free_eq_ok_iff (h : f.liveRegisters.Nodup) : free r f = .ok () g ↔
    r ∈ f.liveRegisters ∧ g = { f with live := f.live.filter (·.1 != r) } := by
  rw [← isLive_iff, free_eq, eraseP_eq_filter h]
  split
  case isTrue hr => simp [hr, eq_comm]
  case isFalse hr => simp [hr]

theorem free_eq_error_iff : free r f = .error cause g ↔
    r ∉ f.liveRegisters ∧ cause = .notAllocated r ∧ g = f := by
  rw [← isLive_iff, free_eq]
  split
  case isTrue h => simp [h]
  case isFalse h => simp [h, eq_comm]

-- All that a call can do: fail and change nothing, hand out a register that is not live, or take
-- registers out of the live ones.
theorem respond_cases (f : RegisterFile) (call : Call) :
    (∃ cause, respond call f = .error cause f) ∨
    (∃ r owner, r ∉ f.liveRegisters ∧ respond call f = .ok (some r) (f.assign r owner)) ∨
    ∃ live, live.Sublist f.live ∧ respond call f = .ok none { f with live } := by
  cases call
  case allocate c owner =>
    simp only [respond, bind, EStateM.bind]
    cases h : allocate c owner f
    case ok r g =>
      obtain ⟨⟨hr, -⟩, rfl⟩ := allocate_eq_ok_iff.mp h
      exact .inr (.inl ⟨r, owner, hr, rfl⟩)
    case error cause g =>
      obtain ⟨-, -, rfl⟩ := allocate_eq_error_iff.mp h
      exact .inl ⟨cause, rfl⟩
  case allocateFixed r owner =>
    simp only [respond, bind, EStateM.bind]
    cases h : allocateFixed r owner f
    case ok g =>
      obtain ⟨hr, rfl⟩ := allocateFixed_eq_ok_iff.mp h
      exact .inr (.inl ⟨r, owner, hr, rfl⟩)
    case error cause g =>
      obtain ⟨-, -, rfl⟩ := allocateFixed_eq_error_iff.mp h
      exact .inl ⟨cause, rfl⟩
  case free r =>
    simp only [respond, bind, EStateM.bind, free_eq]
    by_cases hr : f.isLive r
    · rw [if_pos hr]
      exact .inr (.inr ⟨_, List.eraseP_sublist, rfl⟩)
    · rw [if_neg hr]
      exact .inl ⟨_, rfl⟩
  case freeOwner owner => exact .inr (.inr ⟨_, List.filter_sublist, rfl⟩)

theorem eq_of_respond_error (h : respond call f = .error cause g) : g = f := by
  rcases f.respond_cases call with ⟨_, e⟩ | ⟨_, _, _, e⟩ | ⟨_, _, e⟩ <;> cases h.symm.trans e
  rfl

theorem liveRegisters_assign : (f.assign r owner).liveRegisters = f.liveRegisters ++ [r] := by
  simp [liveRegisters, assign]

theorem nodup_assign (h : f.liveRegisters.Nodup) (hr : r ∉ f.liveRegisters) :
    (f.assign r owner).liveRegisters.Nodup := by
  rw [liveRegisters_assign]
  exact h.append (List.nodup_singleton r) (by simpa using hr)

theorem nodup_run (h : f.liveRegisters.Nodup) : (f.run calls).liveRegisters.Nodup := by
  induction calls generalizing f
  case nil => exact h
  case cons call calls ih =>
    rcases f.respond_cases call with ⟨_, e⟩ | ⟨r, owner, hr, e⟩ | ⟨live, hs, e⟩ <;> rw [run, e]
    · exact ih h
    · exact ih (nodup_assign h hr)
    · exact ih (h.sublist (hs.map Prod.fst))

theorem contains_used_assign : (f.assign r owner).used.contains q = true ↔
    f.used.contains q = true ∨ q = r ∧ q.isTracked = true := by
  simp only [assign, RegisterSet.contains_insert, Bool.or_eq_true, Bool.and_eq_true, beq_iff_eq]
  refine or_congr_right (and_congr_right ?_)
  rintro rfl
  exact Iff.rfl

theorem contains_used_run : (f.run calls).used.contains q = true ↔
    f.used.contains q = true ∨ q ∈ f.handedOut calls ∧ q.isTracked = true := by
  induction calls generalizing f
  case nil => simp [run, handedOut]
  case cons call calls ih =>
    rcases f.respond_cases call with ⟨_, e⟩ | ⟨r, owner, _, e⟩ | ⟨live, _, e⟩ <;> rw [run, handedOut, e]
    · exact ih
    · rw [List.mem_cons, or_and_right, ← or_assoc, ← contains_used_assign]
      exact ih
    · exact ih

theorem owner?_eq_some_iff (h : f.liveRegisters.Nodup) :
    f.owner? r = some owner ↔ (r, owner) ∈ f.live := by
  rw [owner?, List.lookup_eq_some_iff]
  constructor
  case mp =>
    rintro ⟨before, after, e, -⟩
    simp [e]
  case mpr =>
    intro hm
    obtain ⟨before, after, e⟩ := List.append_of_mem hm
    refine ⟨before, after, e, ?_⟩
    intro entry he
    rw [liveRegisters, e, List.map_append, List.nodup_append] at h
    have ne := h.right.right entry.1 (List.mem_map_of_mem he) r (by simp)
    simpa using ne.symm

-- As long as registers are only taken out or only added, each keeps its owner.
theorem owner?_of_sublist (h : f.liveRegisters.Nodup) (hs : g.live.Sublist f.live)
    (hq : q ∈ g.liveRegisters) : g.owner? q = f.owner? q := by
  obtain ⟨⟨_, owner⟩, hm, rfl⟩ := List.mem_map.mp hq
  have hg : g.liveRegisters.Nodup := h.sublist (hs.map Prod.fst)
  rw [(owner?_eq_some_iff hg).mpr hm, (owner?_eq_some_iff h).mpr (hs.subset hm)]

-- From `f` to `g` the register `r` has become live, for `owner`, and no other has changed hands.
structure Grants (f : RegisterFile) (r : Register) (owner : Ssa.ValueId) (g : RegisterFile) :
    Prop where
  fresh : r ∉ f.liveRegisters
  live : g.liveRegisters = f.liveRegisters ++ [r]
  owner : g.owner? r = some owner
  others : ∀ q ∈ f.liveRegisters, g.owner? q = f.owner? q

-- From `f` to `g` the live registers in `gone` have been freed, and the others are live in the order
-- and with the owners that they had.
structure Releases (f : RegisterFile) (gone : Register → Prop) [DecidablePred gone]
    (g : RegisterFile) : Prop where
  live : g.liveRegisters = f.liveRegisters.filter (¬ gone ·)
  others : ∀ q ∈ g.liveRegisters, g.owner? q = f.owner? q

theorem grants_assign (h : f.liveRegisters.Nodup) (hr : r ∉ f.liveRegisters) :
    f.Grants r owner (f.assign r owner) := by
  have distinct : (f.assign r owner).liveRegisters.Nodup := nodup_assign h hr
  refine ⟨hr, liveRegisters_assign, ?owner, ?others⟩
  case owner => exact (owner?_eq_some_iff distinct).mpr (by simp [assign])
  case others =>
    intro q hq
    exact (owner?_of_sublist distinct (List.sublist_append_left _ _) hq).symm

theorem releases_filter (h : f.liveRegisters.Nodup) {gone : Register → Prop} [DecidablePred gone]
    {keep : Register × Ssa.ValueId → Bool} (hk : ∀ e ∈ f.live, keep e = true ↔ ¬ gone e.1) :
    f.Releases gone { f with live := f.live.filter keep } := by
  refine ⟨?live, fun q hq => owner?_of_sublist h List.filter_sublist hq⟩
  case live =>
    rw [liveRegisters, liveRegisters, List.filter_map]
    congr 1
    apply List.filter_congr
    intro e he
    rw [Function.comp_apply, Bool.eq_iff_iff, decide_eq_true_iff]
    exact hk e he

theorem releases_free (h : f.liveRegisters.Nodup) (hg : free r f = .ok () g) :
    f.Releases (· = r) g := by
  obtain ⟨-, rfl⟩ := (free_eq_ok_iff h).mp hg
  exact releases_filter h (by simp)

theorem releases_freeOwner (h : f.liveRegisters.Nodup) :
    f.Releases (f.owner? · = some owner) (f.freeOwner owner) := by
  apply releases_filter h
  rintro ⟨q, holder⟩ he
  simp [(owner?_eq_some_iff h).mpr he]

-- What can be relied on in a register file that has handed out the registers `handed`.
structure Sound (f : RegisterFile) (handed : List Register) : Prop where
  distinct : f.liveRegisters.Nodup
  -- A class gives its first register that is not live, and fails only if there is none.
  allocate : ∀ c owner r g, allocate c owner f = .ok r g → f.Grants r owner g ∧
    ∃ before after, c.registers = before ++ r :: after ∧ ∀ q ∈ before, q ∈ f.liveRegisters
  allocate_error : ∀ c owner cause g, RegisterFile.allocate c owner f = .error cause g ↔
    (∀ r ∈ c.registers, r ∈ f.liveRegisters) ∧ cause = .noneFree c.name ∧ g = f
  allocateFixed : ∀ r owner g, allocateFixed r owner f = .ok () g → f.Grants r owner g
  allocateFixed_error : ∀ r owner cause g, RegisterFile.allocateFixed r owner f = .error cause g ↔
    r ∈ f.liveRegisters ∧ cause = .inUse r ∧ g = f
  free : ∀ r g, free r f = .ok () g → f.Releases (· = r) g
  free_error : ∀ r cause g, RegisterFile.free r f = .error cause g ↔
    r ∉ f.liveRegisters ∧ cause = .notAllocated r ∧ g = f
  freeOwner : ∀ owner, f.Releases (f.owner? · = some owner) (f.freeOwner owner)
  -- A call that fails leaves the file as it was.
  unchanged : ∀ call cause g, respond call f = .error cause g → g = f
  -- Every register that has a place in the set of used ones is there once it has been handed out,
  -- and stays there.
  used : ∀ r, f.used.contains r = true ↔ r ∈ handed ∧ r.bank < 4 ∧ r.id < 64
  stays : ∀ r calls, f.used.contains r = true → (f.run calls).used.contains r = true
  -- A function saves and restores the callee-saved registers that were handed out for it.
  saved : ∀ frame : Frame, (∀ entry ∈ frame.pool, ∃ bytes, entry.2 = .bytes bytes) →
    ∀ r ∈ Register.calleeSaved, r ∈ handed → (frame.commit f).prologue.count (.push r) = 1 ∧
      ∃ code, (frame.commit f).epilogue = .ok code ∧ code.count (.pop r) = 1

theorem isTracked_of_calleeSaved : ∀ r ∈ Register.calleeSaved, r.isTracked = true := by
  decide

theorem saved_commit {frame : Frame} (hr : r ∈ Register.calleeSaved)
    (hu : f.used.contains r = true)
    (literal : ∀ entry ∈ frame.pool, ∃ bytes, entry.2 = .bytes bytes) :
    (frame.commit f).prologue.count (.push r) = 1 ∧
      ∃ code, (frame.commit f).epilogue = .ok code ∧ code.count (.pop r) = 1 := by
  have member : r ∈ (frame.commit f).saved :=
    Frame.mem_saved_of_isUsed hr (Frame.isUsed_commit.mpr (.inr hu))
  exact ⟨Frame.count_push_prologue member,
    Frame.count_pop_epilogue member (Frame.pool_commit.symm ▸ literal)⟩

-- After any sequence of calls, failing ones included, no register is booked twice and none that was
-- handed out is forgotten.
theorem sound_run (calls : List Call) : Sound (empty.run calls) (empty.handedOut calls) := by
  have distinct : (empty.run calls).liveRegisters.Nodup := nodup_run List.nodup_nil
  have used : ∀ r, (empty.run calls).used.contains r = true ↔
      r ∈ empty.handedOut calls ∧ r.isTracked = true := by
    intro r
    have none : empty.used.contains r = false := RegisterSet.contains_empty r
    rw [contains_used_run, none]
    exact or_iff_right Bool.false_ne_true
  refine ⟨distinct, ?allocate, fun _ _ _ _ => allocate_eq_error_iff, ?fixed,
    fun _ _ _ _ => allocateFixed_eq_error_iff, fun _ _ => releases_free distinct,
    fun _ _ _ => free_eq_error_iff, fun _ => releases_freeOwner distinct,
    fun _ _ _ => eq_of_respond_error, ?used, ?stays, ?saved⟩
  case allocate =>
    intro c owner r g h
    obtain ⟨⟨fresh, first⟩, rfl⟩ := allocate_eq_ok_iff.mp h
    exact ⟨grants_assign distinct fresh, first⟩
  case fixed =>
    intro r owner g h
    obtain ⟨fresh, rfl⟩ := allocateFixed_eq_ok_iff.mp h
    exact grants_assign distinct fresh
  case used =>
    intro r
    rw [used, Register.isTracked, Bool.and_eq_true, decide_eq_true_iff, decide_eq_true_iff]
  case stays => exact fun r more h => contains_used_run.mpr (.inl h)
  case saved =>
    intro frame literal r hr handed
    exact saved_commit hr ((used r).mpr ⟨handed, isTracked_of_calleeSaved r hr⟩) literal

-- Byte registers and fixed ones compete with a class, three calls fail, and `rbx` is free again when
-- the file is committed.
def contended : List Call :=
  [.allocate .reg8 ⟨0⟩, .allocate .reg8 ⟨0⟩, .allocateFixed .rbx ⟨1⟩, .allocate .reg64 ⟨1⟩,
    .allocate .reg8 ⟨2⟩, .freeOwner ⟨0⟩, .free .rbx]

def pooled : Frame where
  name := "f"
  arguments := []
  liveIn := .empty
  result := none
  liveOut := .empty
  stackSize := 16
  pool := [("f_literal_0", .bytes [1, 2])]

theorem sound_run_contended :
    empty.handedOut contended = [.rax, .rbx, .rdx] ∧
    (empty.run contended).liveRegisters = [.rdx] ∧
    Sound (empty.run contended) [.rax, .rbx, .rdx] ∧
    (empty.run contended).used.contains .rbx = true ∧
    (pooled.commit (empty.run contended)).prologue.count (.push .rbx) = 1 ∧
    ∃ code, (pooled.commit (empty.run contended)).epilogue = .ok code ∧
      code.count (.pop .rbx) = 1 := by
  have handed : empty.handedOut contended = [.rax, .rbx, .rdx] := by decide
  have sound : Sound (empty.run contended) [.rax, .rbx, .rdx] := handed ▸ sound_run contended
  exact ⟨handed, by decide, sound, (sound.used .rbx).mpr (by decide),
    sound.saved pooled (by simp [pooled]) .rbx (by decide) (by decide)⟩

end RegisterFile

end StackCompiler
