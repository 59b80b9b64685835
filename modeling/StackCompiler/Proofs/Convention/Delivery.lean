import StackCompiler.Proofs.Convention.Agreement
import StackCompiler.Proofs.Convention.Capacity
import StackCompiler.Proofs.Semantics.Machine

-- Arguments are moved into place one after the other. All of them arrive unless a move overwrites a
-- register in which a later argument still is.

namespace StackCompiler

-- The machine has the register.
def Register.Exists (r : Register) : Prop :=
  r.IsGeneral ∨ r.IsVector
deriving Decidable

namespace Machine

variable {host : Host} {s t u : State} {r q dst src : Register}
variable {pairs : List (Register × Register)}

namespace State

-- What a register of either bank holds. A word has zeros above it.
def held (s : State) (r : Register) : BitVec 128 :=
  if r.bank = Register.generalBank then (s.get r).setWidth 128 else s.vector r.id

-- The register `dst` holds what `src` held, and all others what they held themselves.
structure Copies (s : State) (dst src : Register) (t : State) : Prop where
  target : t.held dst = s.held src
  others : ∀ r, r.Exists → r ≠ dst → t.held r = s.held r

-- Every register holds a number of its own.
def numbered : State where
  general n := BitVec.ofNat 64 n
  vector n := BitVec.ofNat 128 (n + 16)
  memory _ := 0

theorem held_of_isGeneral (h : r.IsGeneral) : s.held r = (s.get r).setWidth 128 :=
  if_pos h.left

theorem held_of_isVector (h : r.IsVector) : s.held r = s.vector r.id :=
  if_neg (by rw [h.left]; decide)

theorem held_numbered_general (h : r.IsGeneral) : (numbered.held r).toNat = r.id := by
  have hlt := h.right
  have word : numbered.get r = BitVec.ofNat 64 r.id := rfl
  rw [held_of_isGeneral h, word, BitVec.toNat_setWidth, BitVec.toNat_ofNat]
  omega

theorem held_numbered_vector (h : r.IsVector) : (numbered.held r).toNat = r.id + 16 := by
  have hlt := h.right
  have word : numbered.vector r.id = BitVec.ofNat 128 (r.id + 16) := rfl
  rw [held_of_isVector h, word, BitVec.toNat_ofNat]
  omega

theorem eq_of_held_numbered (hr : r.Exists) (hq : q.Exists)
    (h : numbered.held r = numbered.held q) : r = q := by
  have hn := congrArg BitVec.toNat h
  rcases hr with hr | hr <;> rcases hq with hq | hq
  case inl.inl =>
    rw [held_numbered_general hr, held_numbered_general hq] at hn
    by_contra hne
    exact hr.id_ne hq hne hn
  case inl.inr =>
    rw [held_numbered_general hr, held_numbered_vector hq] at hn
    have := hr.right
    omega
  case inr.inl =>
    rw [held_numbered_vector hr, held_numbered_general hq] at hn
    have := hq.right
    omega
  case inr.inr =>
    rw [held_numbered_vector hr, held_numbered_vector hq] at hn
    have bank : r.bank = q.bank := hr.left.trans hq.left.symm
    cases r
    cases q
    simp_all

end State

theorem execute_move_general (hd : dst.IsGeneral) (hs : src.IsGeneral) :
    ∃ t, (Instruction.move dst src).execute host s = some t ∧ s.Copies dst src t := by
  refine ⟨_, if_pos ⟨hd, hs⟩, ?_, fun r hr hne => ?_⟩
  · rw [State.held_of_isGeneral hd, State.held_of_isGeneral hs, State.get_set_self]
  · rcases hr with hr | hr
    · rw [State.held_of_isGeneral hr, State.held_of_isGeneral hr,
        State.get_set_of_ne (hr.id_ne hd hne)]
    · rw [State.held_of_isVector hr, State.held_of_isVector hr]
      rfl

theorem execute_move_vector (hd : dst.IsVector) (hs : src.IsVector) :
    ∃ t, (Instruction.move dst src).execute host s = some t ∧ s.Copies dst src t := by
  have general : ¬(dst.IsGeneral ∧ src.IsGeneral) := fun h =>
    absurd (h.left.left.symm.trans hd.left) (by decide)
  refine ⟨_, (if_neg general).trans (if_pos ⟨hd, hs⟩), ?_, fun r hr hne => ?_⟩
  · rw [State.held_of_isVector hd, State.held_of_isVector hs]
    exact Function.update_self ..
  · rcases hr with hr | hr
    · rw [State.held_of_isGeneral hr, State.held_of_isGeneral hr]
      rfl
    · have id_ne : r.id ≠ dst.id := by
        intro same
        have bank : r.bank = dst.bank := hr.left.trans hd.left.symm
        cases r
        cases dst
        simp_all
      rw [State.held_of_isVector hr, State.held_of_isVector hr]
      exact Function.update_of_ne id_ne ..

theorem execute_move (host : Host) (s : State) (hd : dst.Exists) (hs : src.Exists)
    (hb : dst.bank = src.bank) :
    ∃ t, (Instruction.move dst src).execute host s = some t ∧ s.Copies dst src t := by
  have apart : Register.generalBank ≠ Register.vectorBank := by decide
  rcases hd with hd | hd <;> rcases hs with hs | hs
  · exact execute_move_general hd hs
  · exact absurd (hd.left.symm.trans (hb.trans hs.left)) apart
  · exact absurd (hs.left.symm.trans (hb.symm.trans hd.left)) apart
  · exact execute_move_vector hd hs

theorem exists_of_execute_move (h : (Instruction.move dst src).execute host s = some t) :
    src.Exists := by
  simp only [Instruction.execute] at h
  split at h
  case isTrue hg => exact .inl hg.right
  case isFalse =>
    split at h
    case isTrue hv => exact .inr hv.right
    case isFalse => cases h

-- One move for each pair of a target and a source that differ.
def moveAll (pairs : List (Register × Register)) : List Instruction :=
  (pairs.filter fun p => p.1 ≠ p.2).map fun p => .move p.1 p.2

-- The states on the way of such moves, one for each pair.
inductive Transfers : List (Register × Register) → State → State → Prop
  | nil {s : State} : Transfers [] s s
  | cons {p : Register × Register} {pairs : List (Register × Register)} {s t u : State}
    (hp : s.Copies p.1 p.2 u) (h : Transfers pairs u t) : Transfers (p :: pairs) s t

theorem run_moveAll (host : Host) (s : State)
    (ht : ∀ p ∈ pairs, p.1.Exists ∧ p.1.bank = p.2.bank) (hs : ∀ p ∈ pairs, p.2.Exists) :
    ∃ t, run host (moveAll pairs) s = some (.finished t) ∧ Transfers pairs s t := by
  induction pairs generalizing s
  case nil => exact ⟨s, rfl, .nil⟩
  case cons p pairs hi =>
    obtain ⟨hp, ht⟩ := List.forall_mem_cons.mp ht
    obtain ⟨hps, hs⟩ := List.forall_mem_cons.mp hs
    by_cases same : p.1 = p.2
    case pos =>
      obtain ⟨t, hr, h⟩ := hi s ht hs
      refine ⟨t, ?_, .cons ⟨by rw [same], fun _ _ _ => rfl⟩ h⟩
      rw [moveAll, List.filter_cons_of_neg (by simpa using same)]
      exact hr
    case neg =>
      obtain ⟨u, hu, hc⟩ := execute_move host s hp.left hps hp.right
      obtain ⟨t, hr, h⟩ := hi u ht hs
      refine ⟨t, ?_, .cons hc h⟩
      rw [moveAll, List.filter_cons_of_pos (by simpa using same), List.map_cons, run_cons hu]
      exact hr

-- Registers that the machine does not have stop it.
theorem exists_of_run_moveAll (ht : ∀ p ∈ pairs, p.1.Exists ∧ p.1.bank = p.2.bank)
    (h : run host (moveAll pairs) s = some (.finished t)) : ∀ p ∈ pairs, p.2.Exists := by
  induction pairs generalizing s
  case nil => simp
  case cons p pairs hi =>
    obtain ⟨hp, ht⟩ := List.forall_mem_cons.mp ht
    rw [List.forall_mem_cons]
    by_cases same : p.1 = p.2
    case pos =>
      rw [moveAll, List.filter_cons_of_neg (by simpa using same)] at h
      exact ⟨same ▸ hp.left, hi ht h⟩
    case neg =>
      rw [moveAll, List.filter_cons_of_pos (by simpa using same), List.map_cons, run] at h
      case x_2 => simp
      obtain ⟨u, hu, h⟩ := Option.bind_eq_some_iff.mp h
      exact ⟨exists_of_execute_move hu, hi ht h⟩

namespace Transfers

variable (h : Transfers pairs s t)
include h

theorem held_of_not_mem (hr : r.Exists) (hn : r ∉ pairs.map Prod.fst) : t.held r = s.held r := by
  induction h
  case nil => rfl
  case cons hp _ hi =>
    rw [List.map_cons, List.mem_cons, not_or] at hn
    exact (hi hn.right).trans (hp.others r hr hn.left)

variable (hn : (pairs.map Prod.fst).Nodup)
variable (he : ∀ p ∈ pairs, p.1.Exists ∧ p.2.Exists)
include hn he

-- A source that is no target still holds its value when its turn comes.
theorem held_of_mem {p : Register × Register} (hm : p ∈ pairs) (hs : p.2 ∉ pairs.map Prod.fst) :
    t.held p.1 = s.held p.2 := by
  induction h
  case nil => simp at hm
  case cons q pairs _ _ _ hq h hi =>
    rw [List.map_cons, List.nodup_cons] at hn
    rw [List.map_cons, List.mem_cons, not_or] at hs
    have hep := he p hm
    obtain ⟨heq, he⟩ := List.forall_mem_cons.mp he
    rcases List.mem_cons.mp hm with rfl | hm
    · exact (h.held_of_not_mem heq.left hn.left).trans hq.target
    · exact (hi hn.right he hm hs.right).trans (hq.others _ hep.right hs.left)

-- A source that an earlier pair has as its target has lost its value, and the two targets hold the
-- same in the end.
theorem overwritten :
    pairs.Pairwise fun first later => later.2 = first.1 → t.held later.1 = t.held first.1 := by
  induction h
  case nil => exact .nil
  case cons p pairs _ _ _ hp h hi =>
    rw [List.map_cons, List.nodup_cons] at hn
    obtain ⟨hep, he⟩ := List.forall_mem_cons.mp he
    refine .cons (fun q hq same => ?_) (hi hn.right he)
    rw [h.held_of_mem hn.right he hq (same ▸ hn.left), same, h.held_of_not_mem hep.left hn.left]

-- What every target holds, if no move takes a later source away.
theorem delivers
    (ho : pairs.Pairwise fun first later => first.1 ≠ first.2 → later.2 ≠ first.1) :
    ∀ p ∈ pairs, t.held p.1 = s.held p.2 := by
  induction h
  case nil => simp
  case cons p pairs _ _ _ hp h hi =>
    rw [List.map_cons, List.nodup_cons] at hn
    obtain ⟨hep, he⟩ := List.forall_mem_cons.mp he
    obtain ⟨hfirst, ho⟩ := List.pairwise_cons.mp ho
    refine List.forall_mem_cons.mpr ⟨?_, fun q hq => (hi hn.right he ho q hq).trans ?_⟩
    · exact (h.held_of_not_mem hep.left hn.left).trans hp.target
    · by_cases same : q.2 = p.1
      case neg => exact hp.others _ (he q hq).right same
      case pos =>
        have stays : p.1 = p.2 := by
          by_contra hne
          exact hfirst q hq hne same
        rw [same, hp.target, ← stays]

end Transfers

end Machine

namespace Convention

open Machine (Host Instruction Transfers moveAll run)

variable {types all : List Scalar} {targets args : List Register} {a : Assigner}
variable {code : List Instruction} {bank other : Bank} {r : Register} {n m : Nat}

namespace Bank

theorem exists_of_argument (h : bank.argumentRegisters[n]? = some r) : r.Exists := by
  have all : ∀ r ∈ bank.argumentRegisters, r.Exists := by cases bank <;> decide
  exact all r (List.mem_of_getElem? h)

-- No two arguments have one register in common.
theorem argumentRegisters_inj (h : bank.argumentRegisters[n]? = some r)
    (h' : other.argumentRegisters[m]? = some r) : bank = other ∧ n = m := by
  have same : bank = other := by
    have apart : ∀ r ∈ bank.argumentRegisters, r ∈ other.argumentRegisters → bank = other := by
      cases bank <;> cases other <;> decide
    exact apart r (List.mem_of_getElem? h) (List.mem_of_getElem? h')
  subst same
  have nodup : bank.argumentRegisters.Nodup := by cases bank <;> decide
  have lt : n < bank.argumentRegisters.length := (List.getElem?_eq_some_iff.mp h).1
  exact ⟨rfl, (List.getElem?_inj lt nodup).mp (h.trans h'.symm)⟩

end Bank

-- The registers that are given out, in the order of their bank and none before the first free one.
theorem go_spec (h : assign.go all a types = .ok targets) :
    (∀ r ∈ targets, ∃ (bank : Bank) (n : Nat), a.taken bank ≤ n ∧
      bank.argumentRegisters[n]? = some r) ∧ targets.Nodup := by
  induction types generalizing a targets
  case nil =>
    cases h
    simp
  case cons type types hi =>
    rw [assign.go] at h
    split at h
    case h_1 => cases h
    case h_2 r b hnext =>
      obtain ⟨hr, rfl⟩ := Assigner.next?_eq_some_iff.mp hnext
      cases hg : assign.go all (a.take (.ofType type)) types <;> rw [hg] at h <;> cases h
      case ok rest =>
        obtain ⟨hmem, hnd⟩ := hi hg
        refine ⟨List.forall_mem_cons.mpr ⟨⟨_, _, Nat.le_refl _, hr⟩, fun q hq => ?_⟩,
          List.nodup_cons.mpr ⟨fun hq => ?_, hnd⟩⟩
        · obtain ⟨bank, n, hle, hn⟩ := hmem q hq
          rw [Assigner.taken_take] at hle
          exact ⟨bank, n, Nat.le_of_add_right_le hle, hn⟩
        · obtain ⟨bank, n, hle, hn⟩ := hmem r hq
          obtain ⟨rfl, rfl⟩ := Bank.argumentRegisters_inj hr hn
          rw [Assigner.taken_take, if_pos rfl] at hle
          omega

theorem moves_eq_ok (h : moves targets args = .ok code) :
    code = moveAll (targets.zip args) ∧ ∀ p ∈ targets.zip args, p.1.bank = p.2.bank := by
  induction targets generalizing args code
  case nil =>
    cases h
    simp [moveAll]
  case cons target targets hi =>
    cases args
    case nil =>
      cases h
      simp [moveAll]
    case cons arg args =>
      rw [moves] at h
      split at h
      case isTrue => cases h
      case isFalse hb =>
        rw [not_not] at hb
        cases hm : moves targets args <;> rw [hm] at h <;> cases h
        case ok rest =>
          obtain ⟨rfl, hbanks⟩ := hi hm
          rw [List.zip_cons_cons]
          refine ⟨?_, List.forall_mem_cons.mpr ⟨hb, hbanks⟩⟩
          by_cases same : target = arg
          · rw [if_pos same, moveAll, moveAll, List.filter_cons_of_neg (by simpa using same)]
          · rw [if_neg same, moveAll, moveAll, List.filter_cons_of_pos (by simpa using same),
              List.map_cons]

-- From whatever state the code starts, every target holds in the end what the argument in its
-- place held in the beginning.
def Delivers (code : List Instruction) (targets args : List Register) : Prop :=
  ∀ (host : Host) (s : Machine.State), ∃ t, run host code s = some (.finished t) ∧
    List.Forall₂ (fun target arg => t.held target = s.held arg) targets args

-- Every argument that has to move does so after all arguments that are in the register it goes to.
def Orderly (targets args : List Register) : Prop :=
  (targets.zip args).Pairwise fun first later => first.1 ≠ first.2 → later.2 ≠ first.1
deriving Decidable

theorem forall_mem_zip_iff {P : Register → Prop} (hl : targets.length = args.length) :
    (∀ p ∈ targets.zip args, P p.2) ↔ ∀ r ∈ args, P r := by
  conv => rhs; rw [← List.map_snd_zip (Nat.le_of_eq hl.symm)]
  exact List.forall_mem_map.symm

-- The arguments arrive just if they are in registers that exist, and none is overwritten before its
-- turn comes.
theorem fillArguments_delivers_iff {live : RegisterSet}
    (h : (fillArguments types args live).1 = .ok code) :
    ∃ targets, assign types = .ok targets ∧
      (Delivers code targets args ↔ (∀ r ∈ args, r.Exists) ∧ Orderly targets args) := by
  rw [fillArguments] at h
  split at h
  case isTrue => cases h
  case isFalse hl =>
    rw [not_not] at hl
    split at h
    case h_1 => cases h
    case h_2 targets hassign =>
      refine ⟨targets, hassign, ?_⟩
      obtain ⟨hregs, hnd⟩ := go_spec hassign
      obtain ⟨rfl, hbanks⟩ := moves_eq_ok h
      have hlen : targets.length = args.length := (length_of_assign hassign).trans hl
      have hfst : ((targets.zip args).map Prod.fst).Nodup := by
        rwa [List.map_fst_zip (Nat.le_of_eq hlen)]
      have ht : ∀ p ∈ targets.zip args, p.1.Exists ∧ p.1.bank = p.2.bank := by
        intro p hp
        obtain ⟨bank, n, -, hn⟩ := hregs p.1 (List.of_mem_zip hp).left
        exact ⟨bank.exists_of_argument hn, hbanks p hp⟩
      rw [← forall_mem_zip_iff hlen]
      constructor
      case mp =>
        intro hd
        let host : Host := ⟨fun _ _ => none, fun _ _ => none⟩
        obtain ⟨t, hr, hheld⟩ := hd host .numbered
        have hs := Machine.exists_of_run_moveAll ht hr
        refine ⟨hs, ?_⟩
        obtain ⟨u, hr', htr⟩ := Machine.run_moveAll host .numbered ht hs
        cases hr.symm.trans hr'
        have hall : ∀ p ∈ targets.zip args, t.held p.1 = Machine.State.numbered.held p.2 :=
          fun p hp => (List.forall₂_iff_zip.mp hheld).2 hp
        -- Two targets hold the same, so the first of them got its own old value.
        refine (htr.overwritten hfst fun p hp => ⟨(ht p hp).left, hs p hp⟩).imp_of_mem ?_
        intro first later hf hlater same hne he
        have heq := same he
        rw [hall later hlater, hall first hf, he] at heq
        exact hne (Machine.State.eq_of_held_numbered (ht first hf).left (hs first hf) heq)
      case mpr =>
        rintro ⟨hs, ho⟩ host s
        obtain ⟨t, hr, htr⟩ := Machine.run_moveAll host s ht hs
        have hall := htr.delivers hfst (fun p hp => ⟨(ht p hp).left, hs p hp⟩) ho
        exact ⟨t, hr, List.forall₂_iff_zip.mpr ⟨hlen, fun hp => hall _ hp⟩⟩

-- The second argument goes to the register that the first one has left, and the third is in place.
theorem fillArguments_delivers_iff_shifted :
    let types : List Scalar := [.i64, .ptr, .f64]
    let args : List Register := [.rsi, .rdx, .xmm 0]
    ∃ code targets, (fillArguments types args .empty).1 = .ok code ∧ assign types = .ok targets ∧
      code = [.move .rdi .rsi, .move .rsi .rdx] ∧ Delivers code targets args := by
  intro types args
  obtain ⟨code, hcode⟩ : ∃ code, (fillArguments types args .empty).1 = .ok code := ⟨_, rfl⟩
  obtain ⟨targets, hassign, hiff⟩ := fillArguments_delivers_iff hcode
  have order : (∀ r ∈ args, r.Exists) ∧ Orderly targets args := by
    cases hassign
    decide
  cases hcode
  exact ⟨_, targets, rfl, hassign, rfl, hiff.mpr order⟩

-- The second argument is in the register to which the first one goes.
theorem not_delivers_overwritten :
    ∃ code targets, (fillArguments [.i64, .i64] [.rax, .rdi] .empty).1 = .ok code ∧
      assign [.i64, .i64] = .ok targets ∧ ¬Delivers code targets [.rax, .rdi] := by
  refine ⟨[.move .rdi .rax, .move .rsi .rdi], [.rdi, .rsi], rfl, rfl, fun h => ?_⟩
  obtain ⟨t, hr, hheld⟩ := h ⟨fun _ _ => none, fun _ _ => none⟩ .numbered
  cases hr
  obtain ⟨-, hheld⟩ := List.forall₂_cons.mp hheld
  obtain ⟨hsecond, -⟩ := List.forall₂_cons.mp hheld
  exact absurd hsecond (by decide)

end Convention

end StackCompiler
