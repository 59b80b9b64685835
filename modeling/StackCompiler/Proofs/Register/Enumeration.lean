import StackCompiler.Register.Set
import Mathlib.Data.List.Nodup

-- The list of a register set, and how many registers there are in it.

namespace StackCompiler

-- The order of registers by bank and by number in it.
def Register.Before (r q : Register) : Prop :=
  r.bank < q.bank ∨ r.bank = q.bank ∧ r.id < q.id
deriving Decidable

theorem Register.isTracked_iff {r : Register} :
    r.isTracked = true ↔ r.bank < 4 ∧ r.id < 64 := by
  rw [isTracked, Bool.and_eq_true, decide_eq_true_iff, decide_eq_true_iff]

namespace RegisterSet

variable {s : RegisterSet} {r : Register} {regs : List Register}

theorem isTracked_of_contains (h : s.contains r = true) : r.isTracked = true := by
  rw [contains] at h
  split at h
  case isTrue hr => exact Register.isTracked_iff.mpr hr
  case isFalse => contradiction

theorem contains_foldl_insert : (regs.foldl insert s).contains r = true ↔
    s.contains r = true ∨ r ∈ regs ∧ r.isTracked = true := by
  induction regs generalizing s
  case nil => simp
  case cons q regs ih =>
    rw [List.foldl_cons, ih, contains_insert, List.mem_cons, or_and_right, ← or_assoc]
    simp only [Bool.or_eq_true, Bool.and_eq_true, beq_iff_eq]
    refine or_congr_left (or_congr_right (and_congr_right ?_))
    rintro rfl
    exact Iff.rfl

theorem contains_ofList : (ofList regs).contains r = true ↔ r ∈ regs ∧ r.isTracked = true := by
  rw [ofList, contains_foldl_insert, contains_empty]
  exact or_iff_right Bool.false_ne_true

theorem pairwise_bankList (bank : Nat) (word : BitVec 64) :
    (bankList bank word).Pairwise Register.Before := by
  have ascending : ((List.range 64).filter fun id => word.getLsbD id).Pairwise (· < ·) :=
    List.pairwise_lt_range.sublist List.filter_sublist
  exact ascending.map _ fun _ _ h => .inr ⟨rfl, h⟩

theorem bank_of_mem_bankList {bank : Nat} {word : BitVec 64} (h : r ∈ bankList bank word) :
    r.bank = bank := by
  obtain ⟨id, -, rfl⟩ := List.mem_map.mp h
  rfl

theorem pairwise_toList (s : RegisterSet) : s.toList.Pairwise Register.Before := by
  rw [toList, List.pairwise_flatMap]
  refine ⟨fun bank _ => pairwise_bankList _ _, ?_⟩
  refine (List.pairwise_lt_finRange 4).imp fun {a b} hlt r hr q hq => .inl ?_
  rw [bank_of_mem_bankList hr, bank_of_mem_bankList hq]
  exact hlt

theorem nodup_toList (s : RegisterSet) : s.toList.Nodup := by
  refine s.pairwise_toList.imp fun {r q} h => ?_
  rintro rfl
  rcases h with h | h
  exacts [Nat.lt_irrefl _ h, Nat.lt_irrefl _ h.right]

theorem length_toList (s : RegisterSet) : s.toList.length = s.size := by
  have words : s.banks.toList = (List.finRange 4).map fun bank => s.banks[bank] := by
    refine List.ext_getElem (by simp) fun n _ _ => ?_
    simp
  have count (bank : Nat) (word : BitVec 64) :
      (bankList bank word).length = (List.range 64).countP fun id => word.getLsbD id := by
    rw [bankList, List.length_map, List.countP_eq_length_filter]
  rw [size, ← Vector.foldl_toList, words, toList, List.length_flatMap, List.foldl_map,
    List.sum_eq_foldl, List.foldl_map]
  simp only [count]

-- A set has as many members as a list that has each of them once.
theorem size_eq_length (hn : regs.Nodup) (hm : ∀ r, s.contains r = true ↔ r ∈ regs) :
    s.size = regs.length := by
  rw [← length_toList]
  refine ((List.perm_ext_iff_of_nodup s.nodup_toList hn).mpr fun r => ?_).length_eq
  rw [mem_toList_iff, hm]

end RegisterSet

end StackCompiler
