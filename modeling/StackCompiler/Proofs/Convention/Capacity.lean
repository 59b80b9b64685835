import StackCompiler.Convention.Assignment

-- Which signatures the argument registers can take.

namespace StackCompiler.Convention

-- The arguments that go to a bank.
def demand (types : List Scalar) (bank : Bank) : Nat :=
  types.countP (Bank.ofType · == bank)

namespace Bank

def capacity (bank : Bank) : Nat :=
  bank.argumentRegisters.length

end Bank

theorem demand_cons (type : Scalar) (types : List Scalar) (bank : Bank) :
    demand (type :: types) bank = demand types bank + if Bank.ofType type = bank then 1 else 0 := by
  simp [demand, List.countP_cons]

namespace Assigner

theorem taken_take (a : Assigner) (bank other : Bank) :
    (a.take bank).taken other = a.taken other + if bank = other then 1 else 0 := by
  cases bank <;> cases other <;> rfl

theorem next?_eq_some_iff {a b : Assigner} {type : Scalar} {r : Register} :
    a.next? type = some (r, b) ↔
      (Bank.ofType type).argumentRegisters[a.taken (.ofType type)]? = some r ∧
        b = a.take (.ofType type) := by
  simp only [next?, Option.map_eq_some_iff, Prod.mk.injEq, @eq_comm _ b]
  constructor
  · rintro ⟨r', hr, rfl, hb⟩
    exact ⟨hr, hb⟩
  · rintro ⟨hr, hb⟩
    exact ⟨r, hr, rfl, hb⟩

theorem next?_eq_none_iff {a : Assigner} {type : Scalar} :
    a.next? type = none ↔ (Bank.ofType type).capacity ≤ a.taken (.ofType type) := by
  simp [next?, Bank.capacity]

end Assigner

-- Each bank has room for its arguments, besides the registers that are already taken.
theorem go_isOk_iff {all types : List Scalar} {a : Assigner}
    (h : ∀ bank : Bank, a.taken bank ≤ bank.capacity) :
    (∃ regs, assign.go all a types = .ok regs) ↔
      ∀ bank : Bank, a.taken bank + demand types bank ≤ bank.capacity := by
  induction types generalizing a
  case nil => simpa [assign.go, demand] using h
  case cons type types ih =>
    rw [assign.go]
    cases hn : a.next? type
    case none =>
      rw [Assigner.next?_eq_none_iff] at hn
      simp only [reduceCtorEq, exists_false, false_iff]
      intro room
      have := room (.ofType type)
      rw [demand_cons, if_pos rfl] at this
      omega
    case some next =>
      obtain ⟨r, b⟩ := next
      obtain ⟨hr, rfl⟩ := Assigner.next?_eq_some_iff.mp hn
      have hlt : a.taken (.ofType type) < (Bank.ofType type).capacity :=
        (List.getElem?_eq_some_iff.mp hr).1
      have ht (bank : Bank) : (a.take (.ofType type)).taken bank ≤ bank.capacity := by
        rw [Assigner.taken_take]
        split
        case isTrue he => exact he ▸ hlt
        case isFalse => exact h bank
      have hgo : (∃ regs, (assign.go all (a.take (.ofType type)) types).map (r :: ·) = .ok regs) ↔
          ∃ regs, assign.go all (a.take (.ofType type)) types = .ok regs := by
        cases assign.go all (a.take (.ofType type)) types <;> simp [Except.map]
      refine hgo.trans ((ih ht).trans (forall_congr' fun bank => ?_))
      rw [Assigner.taken_take, demand_cons]
      omega

theorem assign_isOk_iff {types : List Scalar} :
    (∃ regs, assign types = .ok regs) ↔
      types.countP (!·.isFloat) ≤ 6 ∧ types.countP (·.isFloat) ≤ 8 := by
  have hg : demand types .general = types.countP (!·.isFloat) :=
    List.countP_congr fun type _ => by cases h : type.isFloat <;> simp [Bank.ofType, h]
  have hv : demand types .vector = types.countP (·.isFloat) :=
    List.countP_congr fun type _ => by cases h : type.isFloat <;> simp [Bank.ofType, h]
  have six : Bank.general.capacity = 6 := rfl
  have eight : Bank.vector.capacity = 8 := rfl
  have hstart : ∀ bank : Bank, ({} : Assigner).taken bank ≤ bank.capacity := by
    intro bank
    cases bank <;> decide
  refine (go_isOk_iff hstart).trans ⟨fun h => ⟨?_, ?_⟩, fun h bank => ?_⟩
  · simpa [Assigner.taken, hg, six] using h .general
  · simpa [Assigner.taken, hv, eight] using h .vector
  · cases bank
    case general => simpa [Assigner.taken, hg, six] using h.1
    case vector => simpa [Assigner.taken, hv, eight] using h.2

end StackCompiler.Convention
