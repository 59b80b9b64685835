import StackCompiler.Proofs.Convention.Delivery
import StackCompiler.Proofs.Register.Enumeration

-- Argument registers are those of System V: each entry of a signature has the register of its
-- sequence that is next after those of the earlier entries.

namespace StackCompiler.Convention

open Register in
-- The registers for floating point arguments, and those for all others.
def sequence (float : Bool) : List Register :=
  if float then [xmm 0, xmm 1, xmm 2, xmm 3, xmm 4, xmm 5, xmm 6, xmm 7]
  else [rdi, rsi, rdx, rcx, r8, r9]

-- How many entries before entry `i` take registers of the same sequence.
def rank (types : List Scalar) (i : Nat) (float : Bool) : Nat :=
  (types.take i).countP (·.isFloat == float)

-- The registers of those entries that take them from one of the sequences.
def share (types : List Scalar) (regs : List Register) (float : Bool) : List Register :=
  ((types.zip regs).filter (·.1.isFloat == float)).map Prod.snd

-- The registers `regs` are the right ones for the arguments `types`.
structure Passes (types : List Scalar) (regs : List Register) : Prop where
  length : regs.length = types.length
  location : ∀ (i : Nat) type, types[i]? = some type →
    ∃ r, regs[i]? = some r ∧ (sequence type.isFloat)[rank types i type.isFloat]? = some r
  distinct : regs.Nodup
  -- Arguments of one sequence go where they went if those of the other were others.
  independent : ∀ others regs', assign others = .ok regs' → ∀ float,
    others.filter (·.isFloat == float) = types.filter (·.isFloat == float) →
    share others regs' float = share types regs float
  live : ∀ r, (Frame.entrySet regs).contains r = true ↔ r ∈ regs ∨ r = .rbp
  size : (Frame.entrySet regs).size = types.length + 1
  frame : ∀ name result, ∃ f, Frame.ofSignature name types result = .ok f ∧ f.arguments = regs ∧
    f.liveIn = Frame.entrySet regs

-- The first entry that finds its sequence used up decides what is reported.
def Refused (types : List Scalar) (cause : Overflow) : Prop :=
  ∃ (i : Nat) (type : Scalar), types[i]? = some type ∧
    (sequence type.isFloat).length ≤ rank types i type.isFloat ∧
    (∀ j < i, ∀ earlier, types[j]? = some earlier →
      rank types j earlier.isFloat < (sequence earlier.isFloat).length) ∧
    cause =
      { bank := if type.isFloat then "float" else "integer"
        count := types.countP (·.isFloat == type.isFloat)
        available := if type.isFloat then 8 else 6 }

variable {types all : List Scalar} {type : Scalar} {regs : List Register} {a : Assigner}
variable {cause : Overflow} {i : Nat}

theorem sequence_isFloat (type : Scalar) :
    sequence type.isFloat = (Bank.ofType type).argumentRegisters := by
  cases type <;> rfl

theorem ofType_beq (type other : Scalar) :
    (Bank.ofType other == Bank.ofType type) = (other.isFloat == type.isFloat) := by
  cases type <;> cases other <;> rfl

theorem demand_ofType (types : List Scalar) (type : Scalar) :
    demand types (.ofType type) = types.countP (·.isFloat == type.isFloat) :=
  List.countP_congr fun other _ => by rw [ofType_beq]

theorem shortfall_ofType (types : List Scalar) (type : Scalar) :
    shortfall types (.ofType type) =
      { bank := if type.isFloat then "float" else "integer"
        count := types.countP (·.isFloat == type.isFloat)
        available := if type.isFloat then 8 else 6 } := by
  have count : types.countP (Bank.ofType · == Bank.ofType type) =
      types.countP (·.isFloat == type.isFloat) := demand_ofType types type
  rw [shortfall, count]
  cases type <;> rfl

-- What is taken before an entry, counted from the start or from the second entry on.
theorem taken_add_demand_cons (first type : Scalar) (n : Nat) :
    a.taken (.ofType type) + demand ((first :: types).take (n + 1)) (.ofType type) =
      (a.take (.ofType first)).taken (.ofType type) + demand (types.take n) (.ofType type) := by
  rw [Assigner.taken_take, List.take_succ_cons, demand_cons]
  omega

-- A signature has its registers if the first entry has one and so have the others after it.
theorem exists_of_go_cons (h : assign.go all a (type :: types) = .ok regs) :
    ∃ r rest, (Bank.ofType type).argumentRegisters[a.taken (.ofType type)]? = some r ∧
      assign.go all (a.take (.ofType type)) types = .ok rest ∧ regs = r :: rest := by
  rw [assign.go] at h
  split at h
  case h_1 => cases h
  case h_2 r b hnext =>
    obtain ⟨hr, rfl⟩ := Assigner.next?_eq_some_iff.mp hnext
    cases hg : assign.go all (a.take (.ofType type)) types <;> rw [hg] at h <;> cases h
    exact ⟨r, _, hr, rfl, rfl⟩

theorem location_of_go (h : assign.go all a types = .ok regs) (hi : types[i]? = some type) :
    ∃ r, regs[i]? = some r ∧ (Bank.ofType type).argumentRegisters[
      a.taken (.ofType type) + demand (types.take i) (.ofType type)]? = some r := by
  induction types generalizing a regs i
  case nil => simp at hi
  case cons first types ih =>
    obtain ⟨r, rest, hr, hg, rfl⟩ := exists_of_go_cons h
    cases i
    case zero =>
      cases hi
      exact ⟨r, rfl, hr⟩
    case succ i =>
      obtain ⟨q, hq, hloc⟩ := ih hg hi
      exact ⟨q, hq, taken_add_demand_cons first type i ▸ hloc⟩

-- The entries of a bank have its next registers, whatever stands between them.
theorem share_of_go (h : assign.go all a types = .ok regs) (type : Scalar) :
    share types regs type.isFloat =
      ((Bank.ofType type).argumentRegisters.drop (a.taken (.ofType type))).take
        (demand types (.ofType type)) := by
  induction types generalizing a regs
  case nil => simp [share, demand]
  case cons first types ih =>
    obtain ⟨r, rest, hr, hg, rfl⟩ := exists_of_go_cons h
    have hrest := ih hg
    rw [share] at hrest
    rw [share, List.zip_cons_cons, List.filter_cons, demand_cons]
    simp only [← ofType_beq, beq_iff_eq] at hrest ⊢
    rw [Assigner.taken_take] at hrest
    split
    case isTrue he =>
      rw [if_pos he] at hrest
      rw [he] at hr
      obtain ⟨hlt, rfl⟩ := List.getElem?_eq_some_iff.mp hr
      rw [List.map_cons, hrest, List.drop_eq_getElem_cons hlt, List.take_succ_cons]
    case isFalse he =>
      rw [if_neg he, Nat.add_zero] at hrest
      rw [Nat.add_zero]
      exact hrest

theorem refused_of_go (h : assign.go all a types = .error cause) :
    ∃ (i : Nat) (type : Scalar), types[i]? = some type ∧
      (Bank.ofType type).capacity ≤
        a.taken (.ofType type) + demand (types.take i) (.ofType type) ∧
      (∀ j < i, ∀ earlier, types[j]? = some earlier →
        a.taken (.ofType earlier) + demand (types.take j) (.ofType earlier) <
          (Bank.ofType earlier).capacity) ∧
      cause = shortfall all (.ofType type) := by
  induction types generalizing a
  case nil => cases h
  case cons first types ih =>
    rw [assign.go] at h
    split at h
    case h_1 hnext =>
      cases h
      exact ⟨0, first, rfl, Assigner.next?_eq_none_iff.mp hnext, by simp, rfl⟩
    case h_2 r b hnext =>
      obtain ⟨hr, rfl⟩ := Assigner.next?_eq_some_iff.mp hnext
      cases hg : assign.go all (a.take (.ofType first)) types <;> rw [hg] at h <;> cases h
      obtain ⟨i, type, hi, hfull, hfits, hcause⟩ := ih hg
      refine ⟨i + 1, type, hi, taken_add_demand_cons first type i ▸ hfull,
        fun j hj earlier he => ?_, hcause⟩
      cases j
      case zero =>
        cases he
        exact (List.getElem?_eq_some_iff.mp hr).1
      case succ j =>
        rw [taken_add_demand_cons]
        exact hfits j (by omega) earlier he

variable (h : assign types = .ok regs)
include h

theorem location_of_assign (hi : types[i]? = some type) :
    ∃ r, regs[i]? = some r ∧ (sequence type.isFloat)[rank types i type.isFloat]? = some r := by
  obtain ⟨r, hr, hloc⟩ := location_of_go h hi
  refine ⟨r, hr, ?_⟩
  rw [sequence_isFloat, rank, ← demand_ofType, ← hloc]
  cases Bank.ofType type <;> simp [Assigner.taken]

theorem share_of_assign (float : Bool) :
    share types regs float = (sequence float).take (types.countP (·.isFloat == float)) := by
  obtain ⟨type, rfl⟩ : ∃ type : Scalar, type.isFloat = float := by
    cases float
    exacts [⟨.i32, rfl⟩, ⟨.f32, rfl⟩]
  rw [share_of_go h, sequence_isFloat, demand_ofType]
  cases Bank.ofType type <;> rfl

-- No argument goes to the frame pointer, and each goes where a register set can hold it.
theorem mem_of_assign {r : Register} (hr : r ∈ regs) : r.isTracked = true ∧ r ≠ .rbp := by
  obtain ⟨bank, n, -, hn⟩ := (go_spec h).1 r hr
  have all : ∀ r ∈ bank.argumentRegisters, r.isTracked = true ∧ r ≠ .rbp := by cases bank <;> decide
  exact all r (List.mem_of_getElem? hn)

theorem contains_entrySet (r : Register) :
    (Frame.entrySet regs).contains r = true ↔ r ∈ regs ∨ r = .rbp := by
  have rbp : Register.rbp.isTracked = true := rfl
  rw [Frame.entrySet, RegisterSet.contains_insert, Bool.or_eq_true, RegisterSet.contains_ofList, rbp,
    Bool.and_true, beq_iff_eq]
  exact or_congr_left (and_iff_left_of_imp fun hr => (mem_of_assign h hr).left)

theorem size_entrySet : (Frame.entrySet regs).size = types.length + 1 := by
  have distinct : (.rbp :: regs).Nodup :=
    List.nodup_cons.mpr ⟨fun hr => (mem_of_assign h hr).right rfl, (go_spec h).2⟩
  have members (r : Register) : (Frame.entrySet regs).contains r = true ↔ r ∈ .rbp :: regs := by
    rw [contains_entrySet h, List.mem_cons, or_comm]
  rw [RegisterSet.size_eq_length distinct members, List.length_cons, length_of_assign h]

omit h

theorem refused_of_assign (h : assign types = .error cause) : Refused types cause := by
  obtain ⟨i, type, hi, hfull, hfits, rfl⟩ := refused_of_go h
  have start (bank : Bank) : ({} : Assigner).taken bank = 0 := by cases bank <;> rfl
  simp only [start, Nat.zero_add, demand_ofType, Bank.capacity, ← sequence_isFloat] at hfull hfits
  exact ⟨i, type, hi, hfull, hfits, shortfall_ofType types type⟩

-- Assignment succeeds just if there are enough registers, and then follows System V. Otherwise it
-- reports the bank that ran out first.
theorem assign_follows_systemV (types : List Scalar) :
    ((∃ regs, assign types = .ok regs) ↔
      types.countP (!·.isFloat) ≤ 6 ∧ types.countP (·.isFloat) ≤ 8) ∧
    (∀ regs, assign types = .ok regs → Passes types regs) ∧
    ∀ cause, assign types = .error cause → Refused types cause := by
  refine ⟨assign_isOk_iff, fun regs h => ?_, fun cause => refused_of_assign⟩
  refine ⟨length_of_assign h, fun i type => location_of_assign h, (go_spec h).2, ?independent,
    contains_entrySet h, size_entrySet h, fun name result => ?frame⟩
  case frame =>
    rw [Frame.ofSignature, h]
    exact ⟨_, rfl, rfl, rfl⟩
  case independent =>
    intro others regs' h' float same
    rw [share_of_assign h', share_of_assign h, List.countP_eq_length_filter, same,
      ← List.countP_eq_length_filter]

end StackCompiler.Convention
