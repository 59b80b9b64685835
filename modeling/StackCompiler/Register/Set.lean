import StackCompiler.Register.Basic

-- Sets of registers, one word of bits for each of four banks. A register beyond the fourth bank or
-- beyond the sixty-fourth of its bank is in no set, and putting it in or taking it out does
-- nothing.

namespace StackCompiler

@[ext]
structure RegisterSet where
  banks : Vector (BitVec 64) 4
deriving DecidableEq, Repr

-- Whether a register has a place in register sets.
def Register.isTracked (r : Register) : Bool :=
  r.bank < 4 && r.id < 64

namespace RegisterSet

def empty : RegisterSet :=
  ⟨Vector.replicate 4 0⟩

def contains (s : RegisterSet) (r : Register) : Bool :=
  if h : r.bank < 4 ∧ r.id < 64 then (s.banks[r.bank]).getLsbD r.id else false

def insert (s : RegisterSet) (r : Register) : RegisterSet :=
  if h : r.bank < 4 ∧ r.id < 64 then
    ⟨s.banks.set r.bank (s.banks[r.bank] ||| BitVec.twoPow 64 r.id)⟩
  else
    s

def erase (s : RegisterSet) (r : Register) : RegisterSet :=
  if h : r.bank < 4 ∧ r.id < 64 then
    ⟨s.banks.set r.bank (s.banks[r.bank] &&& ~~~BitVec.twoPow 64 r.id)⟩
  else
    s

def union (s₁ s₂ : RegisterSet) : RegisterSet :=
  ⟨Vector.zipWith (· ||| ·) s₁.banks s₂.banks⟩

def ofList (regs : List Register) : RegisterSet :=
  regs.foldl insert empty

-- The registers of a bank's word, in ascending order.
def bankList (bank : Nat) (word : BitVec 64) : List Register :=
  ((List.range 64).filter fun id => word.getLsbD id).map fun id => ⟨bank, id⟩

-- The registers in ascending order of bank and number.
def toList (s : RegisterSet) : List Register :=
  (List.finRange 4).flatMap fun (bank : Fin 4) => bankList bank s.banks[bank]

def size (s : RegisterSet) : Nat :=
  s.banks.foldl (fun sum word => sum + (List.range 64).countP fun id => word.getLsbD id) 0

def isEmpty (s : RegisterSet) : Bool :=
  s.banks.all (· == 0)

-- Words have no bits beyond the sixty-fourth, so that the number need not be looked at.
theorem contains_eq (s : RegisterSet) (r : Register) :
    s.contains r = if h : r.bank < 4 then (s.banks[r.bank]).getLsbD r.id else false := by
  by_cases h : r.id < 64
  case pos => simp [contains, h]
  case neg =>
    have beyond (word : BitVec 64) : word.getLsbD r.id = false := BitVec.getLsbD_of_ge _ _ (by omega)
    simp [contains, h, beyond]

theorem twoPow_eq_zero {n : Nat} (h : ¬n < 64) : BitVec.twoPow 64 n = 0#64 := by
  ext i hi
  rw [BitVec.getElem_twoPow]
  simp
  omega

theorem insert_eq (s : RegisterSet) (r : Register) : s.insert r =
    if h : r.bank < 4 then ⟨s.banks.set r.bank (s.banks[r.bank] ||| BitVec.twoPow 64 r.id)⟩ else s := by
  by_cases h : r.id < 64
  case pos => simp [insert, h]
  case neg => simp [insert, h, twoPow_eq_zero h]

theorem erase_eq (s : RegisterSet) (r : Register) : s.erase r =
    if h : r.bank < 4 then ⟨s.banks.set r.bank (s.banks[r.bank] &&& ~~~BitVec.twoPow 64 r.id)⟩ else s := by
  by_cases h : r.id < 64
  case pos => simp [erase, h]
  case neg =>
    have same (word : BitVec 64) : word &&& ~~~BitVec.twoPow 64 r.id = word := by
      rw [twoPow_eq_zero h, BitVec.not_zero, BitVec.and_allOnes]
    simp [erase, h, same]

@[simp]
theorem contains_empty (r : Register) : empty.contains r = false := by
  simp [contains_eq, empty]

theorem contains_insert (s : RegisterSet) (r q : Register) :
    (s.insert r).contains q = (s.contains q || (q == r && r.isTracked)) := by
  rcases r with ⟨bank, id⟩
  rcases q with ⟨bank', id'⟩
  rw [Bool.eq_iff_iff]
  by_cases e : bank' = bank
  case pos =>
    subst e
    by_cases h : bank' < 4
    · simp only [insert_eq, contains_eq, Register.isTracked, h, ↓reduceDIte, Vector.getElem_set_self,
        BitVec.getLsbD_or, BitVec.getLsbD_twoPow, Bool.or_eq_true, Bool.and_eq_true,
        decide_eq_true_eq, beq_iff_eq, Register.mk.injEq, true_and]
      exact or_congr_right (by omega)
    · simp [contains_eq, Register.isTracked, h]
  case neg =>
    have e' : bank ≠ bank' := Ne.symm e
    by_cases h : bank < 4 <;> by_cases h' : bank' < 4 <;> simp [insert_eq, contains_eq, h, h', e, e']

theorem contains_erase (s : RegisterSet) (r q : Register) :
    (s.erase r).contains q = (s.contains q && q != r) := by
  rcases r with ⟨bank, id⟩
  rcases q with ⟨bank', id'⟩
  rw [Bool.eq_iff_iff]
  by_cases e : bank' = bank
  case pos =>
    subst e
    by_cases h : bank' < 4
    · simp only [erase_eq, contains_eq, h, ↓reduceDIte, Vector.getElem_set_self, BitVec.getLsbD_and,
        BitVec.getLsbD_not, BitVec.getLsbD_twoPow, Bool.and_eq_true, Bool.not_eq_true',
        Bool.and_eq_false_iff, decide_eq_true_eq, decide_eq_false_iff_not, bne_iff_ne, ne_eq,
        Register.mk.injEq, true_and]
      refine and_congr_right fun hid => ?_
      have := BitVec.lt_of_getLsbD hid
      omega
    · simp [contains_eq, h]
  case neg =>
    have e' : bank ≠ bank' := Ne.symm e
    by_cases h : bank < 4 <;> by_cases h' : bank' < 4 <;> simp [erase_eq, contains_eq, h, h', e, e']

theorem mem_toList_iff {s : RegisterSet} {r : Register} : r ∈ s.toList ↔ s.contains r = true := by
  rcases r with ⟨bank, id⟩
  simp only [toList, bankList, contains_eq, List.mem_flatMap, List.mem_finRange, true_and,
    List.mem_map, List.mem_filter, List.mem_range, Register.mk.injEq]
  constructor
  case mp =>
    rintro ⟨b, _, hid, rfl, rfl⟩
    rw [dif_pos b.isLt]
    exact hid.right
  case mpr =>
    intro h
    split at h
    case isTrue hb => exact ⟨⟨bank, hb⟩, id, ⟨BitVec.lt_of_getLsbD h, h⟩, rfl, rfl⟩
    case isFalse => contradiction

theorem contains_union (s₁ s₂ : RegisterSet) (r : Register) :
    (s₁.union s₂).contains r = (s₁.contains r || s₂.contains r) := by
  by_cases h : r.bank < 4 <;> simp [union, contains_eq, h]

end RegisterSet

end StackCompiler
