import StackCompiler.Proofs.Register.Enumeration
import Mathlib.Data.Finset.Card

-- Register sets behave as finite sets of the registers that have a place in them, whatever
-- operations they have gone through.

namespace StackCompiler.RegisterSet

-- What can be done to sets that are kept under numbers.
inductive Call where
  | ofList (i : Nat) (regs : List Register)
  | insert (i : Nat) (r : Register)
  | erase (i : Nat) (r : Register)
  -- Adds the set `j` to the set `i`.
  | union (i j : Nat)
deriving DecidableEq, Repr

-- A way to keep sets of registers.
structure Operations (σ : Type) where
  empty : σ
  ofList : List Register → σ
  insert : σ → Register → σ
  erase : σ → Register → σ
  union : σ → σ → σ

namespace Operations

variable {σ τ : Type}

def apply (ops : Operations σ) (sets : Nat → σ) : Call → Nat → σ
  | .ofList i regs => Function.update sets i (ops.ofList regs)
  | .insert i r => Function.update sets i (ops.insert (sets i) r)
  | .erase i r => Function.update sets i (ops.erase (sets i) r)
  | .union i j => Function.update sets i (ops.union (sets i) (sets j))

-- The sets after a sequence of calls, which finds all of them empty.
def run (ops : Operations σ) (calls : List Call) : Nat → σ :=
  calls.foldl ops.apply fun _ => ops.empty

-- The same operations restricted to the registers that satisfy `p`: they pass over all others.
def among (ops : Operations σ) (p : Register → Bool) : Operations σ where
  empty := ops.empty
  ofList regs := ops.ofList (regs.filter p)
  insert s r := if p r then ops.insert s r else s
  erase s r := if p r then ops.erase s r else s
  union := ops.union

-- Sets as words of bits.
def words : Operations RegisterSet where
  empty := .empty
  ofList := .ofList
  insert := .insert
  erase := .erase
  union := .union

-- Sets as such, of any registers.
def finite : Operations (Finset Register) where
  empty := ∅
  ofList := List.toFinset
  insert s r := Insert.insert r s
  erase := Finset.erase
  union := (· ∪ ·)

-- It makes no difference whether `f` is taken before or after an operation.
structure Commutes (ops : Operations σ) (ops' : Operations τ) (f : σ → τ) : Prop where
  empty : f ops.empty = ops'.empty
  ofList : ∀ regs, f (ops.ofList regs) = ops'.ofList regs
  insert : ∀ s r, f (ops.insert s r) = ops'.insert (f s) r
  erase : ∀ s r, f (ops.erase s r) = ops'.erase (f s) r
  union : ∀ s t, f (ops.union s t) = ops'.union (f s) (f t)

namespace Commutes

variable {ops : Operations σ} {ops' : Operations τ} {f : σ → τ} (h : ops.Commutes ops' f)

include h

theorem apply (sets : Nat → σ) (call : Call) :
    f ∘ ops.apply sets call = ops'.apply (f ∘ sets) call := by
  cases call <;> rw [Operations.apply, Function.comp_update]
  case ofList i regs => rw [h.ofList, Operations.apply]
  case insert i r => rw [h.insert, Operations.apply, Function.comp_apply]
  case erase i r => rw [h.erase, Operations.apply, Function.comp_apply]
  case union i j => rw [h.union, Operations.apply, Function.comp_apply, Function.comp_apply]

theorem foldl (sets : Nat → σ) (calls : List Call) :
    f ∘ calls.foldl ops.apply sets = calls.foldl ops'.apply (f ∘ sets) := by
  induction calls generalizing sets
  case nil => rfl
  case cons call calls ih => rw [List.foldl_cons, List.foldl_cons, ih, h.apply]

theorem run (calls : List Call) (i : Nat) : f (ops.run calls i) = ops'.run calls i := by
  have start : (f ∘ fun _ : Nat => ops.empty) = fun _ => ops'.empty := funext fun _ => h.empty
  rw [Operations.run, Operations.run, ← start, ← h.foldl, Function.comp_apply]

end Commutes

-- To restrict the operations is to restrict the sets that they give.
theorem commutes_filter (p : Register → Bool) :
    finite.Commutes (finite.among p) (Finset.filter (p · = true)) where
  empty := Finset.filter_empty _
  ofList regs := by
    ext r
    simp [finite, among]
  insert s r := Finset.filter_insert _ r s
  erase s r := by
    simp only [finite, among, Finset.filter_erase]
    split
    case isTrue => rfl
    case isFalse hr => exact Finset.erase_eq_of_notMem (by simp [hr])
  union s t := Finset.filter_union _ s t

end Operations

variable {s t : RegisterSet} {r : Register}

-- The registers in a set.
def members (s : RegisterSet) : Finset Register :=
  s.toList.toFinset

theorem mem_members_iff : r ∈ s.members ↔ s.contains r = true := by
  rw [members, List.mem_toFinset, mem_toList_iff]

theorem members_ofList (regs : List Register) :
    (ofList regs).members = (regs.filter Register.isTracked).toFinset := by
  ext r
  rw [mem_members_iff, contains_ofList, List.mem_toFinset, List.mem_filter]

theorem members_insert (s : RegisterSet) (r : Register) :
    (s.insert r).members = if r.isTracked then Insert.insert r s.members else s.members := by
  ext q
  split
  case isTrue hr => simp [mem_members_iff, contains_insert, hr, or_comm]
  case isFalse hr => simp [mem_members_iff, contains_insert, hr]

theorem members_erase (s : RegisterSet) (r : Register) :
    (s.erase r).members = if r.isTracked then s.members.erase r else s.members := by
  have erased : (s.erase r).members = s.members.erase r := by
    ext q
    simp [mem_members_iff, contains_erase, and_comm]
  rw [erased]
  split
  case isTrue => rfl
  case isFalse hr =>
    -- A register without a place is in no set, so there is nothing to take out.
    refine Finset.erase_eq_of_notMem fun hm => hr ?_
    exact isTracked_of_contains (mem_members_iff.mp hm)

theorem members_union (s t : RegisterSet) : (s.union t).members = s.members ∪ t.members := by
  ext q
  simp [mem_members_iff, contains_union]

-- The words keep the registers that have a place in them as a set should and pass over all others.
theorem commutes_members :
    Operations.words.Commutes (Operations.finite.among Register.isTracked) members where
  empty := by
    ext r
    simp [mem_members_iff, Operations.words, Operations.finite, Operations.among]
  ofList := members_ofList
  insert := members_insert
  erase := members_erase
  union := members_union

-- Every bit of the words is some register's, so sets that have the same registers are the same.
theorem eq_iff_contains : s = t ↔ ∀ r, s.contains r = t.contains r := by
  refine ⟨fun e r => e ▸ rfl, fun h => ?_⟩
  refine RegisterSet.ext (Vector.ext fun bank hb => BitVec.eq_of_getLsbD_eq fun id hid => ?_)
  simpa [contains_eq, hb] using h ⟨bank, id⟩

theorem isEmpty_iff_eq_empty : s.isEmpty = true ↔ s = empty := by
  rw [isEmpty, Vector.all_eq_true, RegisterSet.ext_iff, Vector.ext_iff]
  simp [empty]

theorem toList_eq_nil_iff : s.toList = [] ↔ s = empty := by
  rw [List.eq_nil_iff_forall_not_mem, eq_iff_contains]
  simp [mem_toList_iff]

-- The sets `s` look to their users as the finite sets `S` of registers do.
structure Refines (s : Nat → RegisterSet) (S : Nat → Finset Register) : Prop where
  contains : ∀ i r, (s i).contains r = true ↔ r.bank < 4 ∧ r.id < 64 ∧ r ∈ S i
  -- The list has each member once, and nothing else.
  once : ∀ i r, (s i).toList.count r = if r ∈ S i then 1 else 0
  ascending : ∀ i, (s i).toList.Pairwise Register.Before
  size : ∀ i, (s i).size = (s i).toList.length
  isEmpty : ∀ i, (s i).isEmpty = true ↔ (s i).toList = []
  eq_iff : ∀ i j, s i = s j ↔ ∀ r, (s i).contains r = (s j).contains r

-- After any sequence of calls the words are the sets that the same calls make of the registers with
-- a place in them, and these are the sets that the calls make, less all other registers.
theorem run_refines_finite (calls : List Call) :
    Refines (Operations.words.run calls) ((Operations.finite.among Register.isTracked).run calls) ∧
    ∀ i r, r ∈ (Operations.finite.among Register.isTracked).run calls i ↔
      r.bank < 4 ∧ r.id < 64 ∧ r ∈ Operations.finite.run calls i := by
  have members := commutes_members.run calls
  refine ⟨⟨?contains, ?once, fun i => pairwise_toList _, fun i => (length_toList _).symm, ?isEmpty,
    fun i j => eq_iff_contains⟩, ?restricted⟩
  case contains =>
    intro i r
    rw [← members, mem_members_iff, ← and_assoc, ← Register.isTracked_iff]
    exact (and_iff_right_of_imp isTracked_of_contains).symm
  case once =>
    intro i r
    rw [← members, RegisterSet.members, List.Nodup.count (nodup_toList _)]
    simp only [List.mem_toFinset]
  case isEmpty =>
    intro i
    rw [isEmpty_iff_eq_empty, toList_eq_nil_iff]
  case restricted =>
    intro i r
    rw [← (Operations.commutes_filter _).run, Finset.mem_filter, Register.isTracked_iff,
      and_comm, and_assoc]

-- A number past the end of its bank does not stand for another, and what a set has been given stays
-- in it when the giver loses it.
example : (Operations.words.run [.ofList 0 [⟨1, 3⟩, ⟨0, 64⟩, ⟨0, 63⟩], .insert 1 ⟨3, 63⟩,
    .insert 1 ⟨4, 0⟩, .union 1 0, .erase 1 ⟨1, 67⟩, .erase 0 ⟨1, 3⟩] 1).toList =
      [⟨0, 63⟩, ⟨1, 3⟩, ⟨3, 63⟩] := by
  decide +kernel

end StackCompiler.RegisterSet
