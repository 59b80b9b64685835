import StackCompiler.Proofs.Typing.Acceptance

-- The operands that instructions take off the stack, and those that jumps in dead code leave there. A
-- jump in dead code is skipped, so that code behind it may find operands which are not meant for it.

namespace StackCompiler.Typing

open Bytecode (Instruction)

variable {env : Environment} {k l m : Outline} {item : Item} {ty : Scalar} {i : Instruction}
variable {code : List Instruction}

-- What an instruction asks of an operand.
inductive Demand where
  | value (type : Scalar)
  | condition
  | any
deriving DecidableEq, Repr

-- An integer serves as a condition if it is compared with zero.
def Demand.accepts : Demand → Item → Bool
  | .value type, item => item = .value type
  | .condition, item => item = .comparison ∨ item = .value .i32 ∨ item = .value .i64
  | .any, _ => true

-- What an instruction asks of the operands that it takes, that on top first. What a jump takes along is
-- not among them, as dead code does not look at it.
def Environment.demands (env : Environment) : Instruction → List Demand
  | .binary type _ | .compare type _ => [.value type.scalar, .value type.scalar]
  | .eqz type | .neg type | .floor type => [.value type.scalar]
  | .localSet index | .localTee index => (env.locals[index]?.map Demand.value).toList
  | .globalSet index => (env.globals[index]?.map fun g => Demand.value g.1).toList
  | .load .. => [.value .ptr]
  | .store type _ _ => [.value type.scalar, .value .ptr]
  | .if_ _ | .brIf _ => [.condition]
  | .call index => ((env.callees[index]?.map (·.paramTypes)).getD []).reverse.map .value
  | .drop => [.any]
  | _ => []

-- The operands of the innermost region.
def Outline.operands (k : Outline) : List Item :=
  k.stack.take (k.stack.length - k.floor)

-- Whether the demands accept what they take of the lowest `left` operands of the region.
def Outline.suits (k : Outline) (demands : List Demand) (left : Nat) : Bool :=
  ((demands.zip k.operands).drop (k.operands.length - left)).all fun x => x.1.accepts x.2

-- How many of its lowest operands a region has from jumps in dead code, once the instruction is done:
-- one number for each open region and the body, the innermost first. All operands that such a jump
-- finds are left behind.
def Outline.leave (env : Environment) (i : Instruction) (k : Outline) (counts : List Nat) : List Nat :=
  let rest := min (counts.headD 0) (k.operands.length - (env.demands i).length)
  match i with
  | .block _ | .loop _ | .if_ _ => 0 :: rest :: counts.tail
  | .else_ => 0 :: counts.tail
  | .end_ => counts.tail
  | .br _ | .return_ => (if k.isDead then k.operands.length else 0) :: counts.tail
  | _ => rest :: counts.tail

-- Whether the code accepts whatever it takes of the operands that jumps in dead code left behind.
def Check.harmless (env : Environment) : List Instruction → Outline → List Nat → Bool
  | [], _, _ => true
  | i :: rest, k, counts =>
    k.suits (env.demands i) (counts.headD 0) &&
      match Check.step env i k with
      | some (_, l) => harmless env rest l (k.leave env i counts)
      | none => true

def Environment.Harmless (env : Environment) (instructions : List Instruction) : Prop :=
  Check.harmless env instructions {} [0]
deriving Decidable

theorem bind_eq_of_eq_some {σ α β : Type} {x : StateT σ Option α} {f : α → StateT σ Option β}
    {s t : σ} {a : α} (hx : x s = some (a, t)) : (x >>= f) s = f a t := by
  have hb : (x >>= f) s = (x s).bind fun p => f p.1 p.2 := rfl
  rw [hb, hx, Option.bind_some]

theorem guard_eq_some_iff {σ : Type} {p : Prop} [Decidable p] {s t : σ} {a : Unit} :
    (guard p : StateT σ Option Unit) s = some (a, t) ↔ p ∧ t = s := by
  by_cases hp : p
  · rw [guard, if_pos hp, and_iff_right hp]
    exact ⟨fun h => by cases h; rfl, fun h => by rw [h]; rfl⟩
  · rw [guard, if_neg hp]
    exact iff_of_false (fun h => by cases h) fun h => hp h.1

-- An item of the region that the demand accepts is taken off the stack. Dead code can do without.
inductive Outline.Takes (d : Demand) (k : Outline) : Outline → Prop
  | item {item : Item} {rest : List Item} (hd : d.accepts item = true) (hs : k.stack = item :: rest)
    (hf : k.floor ≤ rest.length) : Takes d k { k with stack := rest }
  | nothing (hd : k.isDead = true) (hf : k.stack.length ≤ k.floor) : Takes d k k

namespace Check

variable {d : Demand}

theorem pop_eq_of_floor (hd : k.isDead = true) (hf : k.stack.length ≤ k.floor) :
    pop k = some (.value .i32, k) := by
  change (if k.stack.length ≤ k.floor then _ else _ : Check Item) k = _
  rw [if_pos hf]
  rw [if_pos hd]
  rfl

theorem pop_eq_of_cons {rest : List Item} (hs : k.stack = item :: rest) (hf : k.floor ≤ rest.length) :
    pop k = some (item, { k with stack := rest }) := by
  have hn : ¬k.stack.length ≤ k.floor := by
    rw [hs, List.length_cons]
    omega
  change (if k.stack.length ≤ k.floor then _ else _ : Check Item) k = _
  rw [if_neg hn, hs]
  rfl

theorem pop_cases (h : pop k = some (item, l)) :
    (k.isDead = true ∧ k.stack.length ≤ k.floor ∧ item = .value .i32 ∧ l = k) ∨
    ∃ rest, k.stack = item :: rest ∧ k.floor ≤ rest.length ∧ l = { k with stack := rest } := by
  change (if k.stack.length ≤ k.floor then _ else _ : Check Item) k = _ at h
  split at h
  case isTrue hf =>
    by_cases hd : k.isDead = true
    · rw [if_pos hd] at h
      cases h
      exact .inl ⟨hd, hf, rfl, rfl⟩
    · rw [if_neg hd] at h
      cases h
  case isFalse hf =>
    cases hs : k.stack <;> rw [hs] at h hf
    case nil => cases h
    case cons top rest =>
      cases h
      exact .inr ⟨rest, rfl, Nat.lt_succ_iff.mp (Nat.lt_of_not_le hf), rfl⟩

theorem pop_of_takes (h : k.Takes d l) :
    ∃ item, (d.accepts item = true ∨ item = .value .i32) ∧ pop k = some (item, l) := by
  cases h
  case item hd hs hf => exact ⟨_, .inl hd, pop_eq_of_cons hs hf⟩
  case nothing hd hf => exact ⟨_, .inr rfl, pop_eq_of_floor hd hf⟩

theorem takes_of_pop (h : pop k = some (item, l)) (hd : d.accepts item = true) : k.Takes d l := by
  rcases pop_cases h with ⟨hdead, hf, _, rfl⟩ | ⟨rest, hs, hf, rfl⟩
  · exact .nothing hdead hf
  · exact .item hd hs hf

theorem drop_iff : discard pop k = some ((), l) ↔ k.Takes .any l := by
  rw [Lowering.Direct.discard_eq_bind]
  refine ⟨fun h => ?_, fun h => ?_⟩
  · obtain ⟨⟨item, l'⟩, hpop, hl⟩ := Option.bind_eq_some_iff.mp h
    cases hl
    exact takes_of_pop hpop rfl
  · obtain ⟨item, _, hpop⟩ := pop_of_takes h
    exact bind_eq_of_eq_some hpop

theorem popCondition_iff : popCondition k = some ((), l) ↔ k.Takes .condition l := by
  refine ⟨fun h => ?_, fun h => ?_⟩
  · obtain ⟨⟨item, l'⟩, hpop, hl⟩ := Option.bind_eq_some_iff.mp h
    cases item
    case comparison =>
      cases hl
      exact takes_of_pop hpop (by simp [Demand.accepts])
    case value ty =>
      obtain ⟨hty, rfl⟩ := guard_eq_some_iff.mp hl
      exact takes_of_pop hpop (by simpa [Demand.accepts] using hty)
  · obtain ⟨item, hitem, hpop⟩ := pop_of_takes h
    refine (bind_eq_of_eq_some hpop).trans ?_
    rw [Demand.accepts, decide_eq_true_iff] at hitem
    rcases hitem with (rfl | rfl | rfl) | rfl <;> rfl

theorem popTyped_eq_of_floor (hd : k.isDead = true) (hf : k.stack.length ≤ k.floor) :
    popTyped ty k = some ((), k) := by
  change (if k.isDead && k.stack.length ≤ k.floor then _ else _ : Check Unit) k = _
  rw [if_pos (by simp [hd, hf])]
  rfl

theorem popTyped_eq_of_cons {rest : List Item} (hs : k.stack = .value ty :: rest)
    (hf : k.floor ≤ rest.length) : popTyped ty k = some ((), { k with stack := rest }) := by
  have hn : ¬k.stack.length ≤ k.floor := by
    rw [hs, List.length_cons]
    omega
  have hv : popValue k = some (ty, { k with stack := rest }) :=
    bind_eq_of_eq_some (pop_eq_of_cons hs hf)
  change (if k.isDead && k.stack.length ≤ k.floor then _ else _ : Check Unit) k = _
  rw [if_neg (by simp [hn])]
  exact (bind_eq_of_eq_some hv).trans (guard_eq_some_iff.mpr ⟨rfl, rfl⟩)

theorem popTyped_iff : popTyped ty k = some ((), l) ↔ k.Takes (.value ty) l := by
  refine ⟨fun h => ?_, fun h => ?_⟩
  · change (if k.isDead && k.stack.length ≤ k.floor then _ else _ : Check Unit) k = _ at h
    split at h
    case isTrue hf =>
      cases h
      simp only [Bool.and_eq_true, decide_eq_true_eq] at hf
      exact .nothing hf.1 hf.2
    case isFalse hf =>
      obtain ⟨⟨found, l'⟩, hpop, hl⟩ := Option.bind_eq_some_iff.mp h
      obtain ⟨rfl, rfl⟩ := guard_eq_some_iff.mp hl
      obtain ⟨⟨item, l'⟩, hpop, hl⟩ := Option.bind_eq_some_iff.mp hpop
      cases item <;> cases hl
      exact takes_of_pop hpop (by simp [Demand.accepts])
  · cases h
    case item hd hs hf =>
      cases of_decide_eq_true hd
      exact popTyped_eq_of_cons hs hf
    case nothing hd hf => exact popTyped_eq_of_floor hd hf

theorem code_cons_iff : Check.code env (i :: code) k = some ((), l) ↔
    k.isEnded = false ∧ ∃ u, Check.step env i k = some ((), u) ∧ Check.code env code u = some ((), l) := by
  have hcode : Check.code env (i :: code) k =
      (guard (k.isEnded = false) >>= fun _ => Check.step env i >>= fun _ => Check.code env code : Check Unit) k :=
    rfl
  rw [hcode]
  refine ⟨fun hx => ?_, fun h => ?_⟩
  · obtain ⟨⟨_, _⟩, hg, hrest⟩ := Option.bind_eq_some_iff.mp hx
    obtain ⟨he, rfl⟩ := guard_eq_some_iff.mp hg
    obtain ⟨⟨_, u⟩, hstep, hrest⟩ := Option.bind_eq_some_iff.mp hrest
    exact ⟨he, u, hstep, hrest⟩
  · obtain ⟨he, u, hstep, hx⟩ := h
    rw [Lowering.Direct.guard_bind_of_pos he]
    exact (bind_eq_of_eq_some hstep).trans hx

end Check

-- Several items, one for each demand.
inductive Outline.TakesAll : List Demand → Outline → Outline → Prop
  | nil {k : Outline} : TakesAll [] k k
  | cons {d : Demand} {ds : List Demand} {k l m : Outline} (h : k.Takes d l) (hs : TakesAll ds l m) :
    TakesAll (d :: ds) k m

section TakesAll

variable {d : Demand} {ds ds' : List Demand}

theorem Outline.Takes.all (h : k.Takes d l) : Outline.TakesAll [d] k l :=
  .cons h .nil

theorem Outline.TakesAll.append (h : Outline.TakesAll ds k l) (h' : Outline.TakesAll ds' l m) :
    Outline.TakesAll (ds ++ ds') k m := by
  induction h
  case nil => exact h'
  case cons ht _ hi => exact .cons ht (hi h')

theorem Outline.operands_eq {items below : List Item} (hs : k.stack = items ++ below)
    (hf : k.floor = below.length) : k.operands = items := by
  rw [Outline.operands, hs, hf, List.length_append, Nat.add_sub_cancel, List.take_left]

theorem Outline.operands_of_floor (hf : k.stack.length ≤ k.floor) : k.operands = [] := by
  rw [Outline.operands, Nat.sub_eq_zero_of_le hf, List.take_zero]

theorem Outline.operands_of_cons {rest : List Item} (hs : k.stack = item :: rest)
    (hf : k.floor ≤ rest.length) :
    k.operands = item :: ({ k with stack := rest } : Outline).operands := by
  have hlen : k.stack.length - k.floor = rest.length - k.floor + 1 := by
    rw [hs, List.length_cons]
    omega
  rw [Outline.operands, hlen, hs, List.take_succ_cons]
  rfl

-- Each demand accepts what it takes.
theorem Outline.TakesAll.accepts (h : Outline.TakesAll ds k l) :
    ∀ x ∈ ds.zip k.operands, x.1.accepts x.2 = true := by
  induction h
  case nil => simp
  case cons ht _ hi =>
    rcases ht with ⟨hd, hs, hf⟩ | ⟨_, hf⟩
    · rw [Outline.operands_of_cons hs hf, List.zip_cons_cons]
      exact List.forall_mem_cons.mpr ⟨hd, hi⟩
    · simp [Outline.operands_of_floor hf]

theorem Outline.TakesAll.suits (h : Outline.TakesAll ds k l) (left : Nat) : k.suits ds left = true :=
  List.all_eq_true.mpr fun x hx => h.accepts x (List.mem_of_mem_drop hx)

end TakesAll

namespace Check

theorem takesAll_of_popArguments {types : List Scalar} (h : popArguments types k = some ((), l)) :
    Outline.TakesAll (types.reverse.map .value) k l := by
  induction types generalizing l
  case nil =>
    cases h
    exact .nil
  case cons type types hi =>
    obtain ⟨⟨_, u⟩, hrest, htop⟩ := Option.bind_eq_some_iff.mp h
    rw [List.reverse_cons, List.map_append]
    exact (hi hrest).append (popTyped_iff.mp htop).all

theorem takesAll_of_localSet {index : Nat} (h : localSet env index k = some (ty, l)) :
    Outline.TakesAll (env.locals[index]?.map Demand.value).toList k l := by
  unfold localSet at h
  cases hl : env.locals[index]? <;> rw [hl] at h
  case none => cases h
  case some =>
    obtain ⟨⟨_, u⟩, hpop, hu⟩ := Option.bind_eq_some_iff.mp h
    cases hu
    exact (popTyped_iff.mp hpop).all

-- An instruction that passes takes what it asks for, before it does anything else.
theorem takesAll_of_step (h : step env i k = some ((), l)) :
    ∃ m, Outline.TakesAll (env.demands i) k m := by
  cases i
  case binary | compare =>
    obtain ⟨⟨_, _⟩, hg, hrest⟩ := Option.bind_eq_some_iff.mp h
    obtain ⟨_, rfl⟩ := guard_eq_some_iff.mp hg
    obtain ⟨⟨_, u⟩, hu, hrest⟩ := Option.bind_eq_some_iff.mp hrest
    obtain ⟨⟨_, m⟩, hm, _⟩ := Option.bind_eq_some_iff.mp hrest
    exact ⟨m, .cons (popTyped_iff.mp hu) (popTyped_iff.mp hm).all⟩
  case eqz | load =>
    obtain ⟨⟨_, m⟩, hm, _⟩ := Option.bind_eq_some_iff.mp h
    exact ⟨m, (popTyped_iff.mp hm).all⟩
  case neg | floor =>
    obtain ⟨⟨_, _⟩, hg, hrest⟩ := Option.bind_eq_some_iff.mp h
    obtain ⟨_, rfl⟩ := guard_eq_some_iff.mp hg
    obtain ⟨⟨_, m⟩, hm, _⟩ := Option.bind_eq_some_iff.mp hrest
    exact ⟨m, (popTyped_iff.mp hm).all⟩
  case localSet =>
    rw [step, Lowering.Direct.discard_eq_bind] at h
    obtain ⟨⟨_, m⟩, hm, _⟩ := Option.bind_eq_some_iff.mp h
    exact ⟨m, takesAll_of_localSet hm⟩
  case localTee =>
    obtain ⟨⟨_, m⟩, hm, _⟩ := Option.bind_eq_some_iff.mp h
    exact ⟨m, takesAll_of_localSet hm⟩
  case globalSet index =>
    simp only [step, Environment.demands] at h ⊢
    cases hg : env.globals[index]? <;> rw [hg] at h
    case none => cases h
    case some =>
      obtain ⟨⟨_, _⟩, hg, hpop⟩ := Option.bind_eq_some_iff.mp h
      obtain ⟨_, rfl⟩ := guard_eq_some_iff.mp hg
      exact ⟨l, (popTyped_iff.mp hpop).all⟩
  case store =>
    obtain ⟨⟨_, u⟩, hu, h⟩ := Option.bind_eq_some_iff.mp h
    exact ⟨l, .cons (popTyped_iff.mp hu) (popTyped_iff.mp h).all⟩
  case if_ | brIf =>
    obtain ⟨⟨_, m⟩, hm, _⟩ := Option.bind_eq_some_iff.mp h
    exact ⟨m, (popCondition_iff.mp hm).all⟩
  case call index =>
    simp only [step, call, Environment.demands] at h ⊢
    cases hc : env.callees[index]? <;> rw [hc] at h
    case none => cases h
    case some callee =>
      obtain ⟨⟨_, _⟩, hg, hrest⟩ := Option.bind_eq_some_iff.mp h
      obtain ⟨_, rfl⟩ := guard_eq_some_iff.mp hg
      obtain ⟨⟨_, m⟩, hm, _⟩ := Option.bind_eq_some_iff.mp hrest
      exact ⟨m, takesAll_of_popArguments hm⟩
  case drop => exact ⟨l, (drop_iff.mp h).all⟩
  all_goals exact ⟨k, .nil⟩

-- Code that passes accepts what was left behind, wherever that is.
theorem harmless_of_code (h : Check.code env code k = some ((), l)) (counts : List Nat) :
    Check.harmless env code k counts = true := by
  induction code generalizing k counts
  case nil => rfl
  case cons i code hi =>
    obtain ⟨_, u, hstep, hrest⟩ := code_cons_iff.mp h
    obtain ⟨m, hm⟩ := takesAll_of_step hstep
    rw [harmless, hstep, Bool.and_eq_true]
    exact ⟨hm.suits _, hi hrest _⟩

end Check

end StackCompiler.Typing
