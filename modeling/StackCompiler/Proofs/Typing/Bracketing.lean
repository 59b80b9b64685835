import StackCompiler.Proofs.Typing.Acceptance
import StackCompiler.Proofs.Typing.Leftover

-- Regions are properly nested in every body that passes the check, in live and in dead code.

namespace StackCompiler

open Bytecode (BlockType Instruction)

-- The instructions that neither open nor turn nor close a region.
def Bytecode.Instruction.isPlain : Instruction → Bool
  | .block _ | .loop _ | .if_ _ | .else_ | .end_ => false
  | _ => true

namespace Typing

-- Code in which every region that is opened is closed.
inductive Nested : List Instruction → Prop
  | nil : Nested []
  | plain {i : Instruction} {code : List Instruction} (hi : i.isPlain = true) (hc : Nested code) :
    Nested (i :: code)
  | block {type : BlockType} {inner code : List Instruction} (hi : Nested inner) (hc : Nested code) :
    Nested (.block type :: inner ++ .end_ :: code)
  | loop {type : BlockType} {inner code : List Instruction} (hi : Nested inner) (hc : Nested code) :
    Nested (.loop type :: inner ++ .end_ :: code)
  | if_ {type : BlockType} {inner code : List Instruction} (hi : Nested inner) (hc : Nested code) :
    Nested (.if_ type :: inner ++ .end_ :: code)
  | ifElse {type : BlockType} {inner other code : List Instruction} (hi : Nested inner)
    (ho : Nested other) (hc : Nested code) :
    Nested (.if_ type :: inner ++ .else_ :: other ++ .end_ :: code)

-- A whole body, with or without an end of its own.
def Bracketed (body : List Instruction) : Prop :=
  ∃ inner, Nested inner ∧ (body = inner ∨ body = inner ++ [.end_])

-- What can stand behind the start of open regions, the innermost one first.
inductive Closing : List Shape → List Instruction → Prop
  | body {code : List Instruction} (h : Bracketed code) : Closing [] code
  | end_ {shape : Shape} {outer : List Shape} {inner code : List Instruction} (hi : Nested inner)
    (h : Closing outer code) : Closing (shape :: outer) (inner ++ .end_ :: code)
  | else_ {outer : List Shape} {inner code : List Instruction} (hi : Nested inner)
    (h : Closing (.else_ :: outer) code) : Closing (.if_ :: outer) (inner ++ .else_ :: code)

section Closing

variable {shape : Shape} {outer : List Shape} {code : List Instruction} {type : BlockType}

-- What can stand in front of nested code can stand here too.
theorem Closing.prepend (h : Closing outer code) (start : List Instruction)
    (hs : ∀ {code}, Nested code → Nested (start ++ code)) : Closing outer (start ++ code) := by
  cases h
  case body h =>
    obtain ⟨inner, hi, rfl | rfl⟩ := h
    · exact .body ⟨start ++ code, hs hi, .inl rfl⟩
    · exact .body ⟨start ++ inner, hs hi, .inr (by rw [List.append_assoc])⟩
  case end_ hi h =>
    rw [← List.append_assoc]
    exact .end_ (hs hi) h
  case else_ hi h =>
    rw [← List.append_assoc]
    exact .else_ (hs hi) h

theorem Closing.plain {i : Instruction} (hi : i.isPlain = true) (h : Closing outer code) :
    Closing outer (i :: code) :=
  h.prepend [i] fun hc => .plain hi hc

-- A region that ends stands in front of what follows it.
theorem Closing.region {i : Instruction} {inner : List Instruction} (h : Closing outer code)
    (hn : ∀ {code}, Nested code → Nested (i :: inner ++ .end_ :: code)) :
    Closing outer (i :: (inner ++ .end_ :: code)) := by
  have hp := h.prepend (i :: inner ++ [.end_]) fun hc => by simpa using hn hc
  simpa using hp

theorem Closing.exists_of_cons (h : Closing (shape :: outer) code) (hs : shape ≠ .if_) :
    ∃ inner rest, Nested inner ∧ Closing outer rest ∧ code = inner ++ .end_ :: rest := by
  cases h
  case end_ inner rest hi h => exact ⟨inner, rest, hi, h, rfl⟩
  case else_ => exact absurd rfl hs

theorem Closing.block (h : Closing (.block :: outer) code) : Closing outer (.block type :: code) := by
  obtain ⟨inner, rest, hi, hr, rfl⟩ := h.exists_of_cons (by decide)
  exact hr.region fun hc => .block hi hc

theorem Closing.loop (h : Closing (.loop :: outer) code) : Closing outer (.loop type :: code) := by
  obtain ⟨inner, rest, hi, hr, rfl⟩ := h.exists_of_cons (by decide)
  exact hr.region fun hc => .loop hi hc

theorem Closing.if_ (h : Closing (.if_ :: outer) code) : Closing outer (.if_ type :: code) := by
  cases h
  case end_ inner rest hi hr => exact hr.region fun hc => .if_ hi hc
  case else_ inner behind hi h =>
    obtain ⟨other, rest, ho, hr, rfl⟩ := h.exists_of_cons (by decide)
    have hn {code} (hc : Nested code) :
        Nested (.if_ type :: (inner ++ .else_ :: other) ++ .end_ :: code) := by
      simpa using Nested.ifElse hi ho hc
    simpa using hr.region hn

end Closing

def Outline.shapes (k : Outline) : List Shape :=
  k.brackets.map Bracket.shape

namespace Check

variable {α β : Type} {x : Check α} {f : α → Check β} {env : Environment} {k l : Outline}

-- The regions stay open and the body goes on.
def Steady (x : Check α) : Prop :=
  ∀ ⦃k a l⦄, x k = some (a, l) → l.shapes = k.shapes ∧ l.isEnded = k.isEnded

theorem Plain.steady (h : x.Plain) : x.Steady := by
  intro k a l hx
  have hs := h.shifts hx
  exact ⟨by rw [Outline.shapes, hs.brackets, Outline.shapes], hs.isEnded⟩

theorem Steady.bind (hx : x.Steady) (hf : ∀ a, (f a).Steady) : (x >>= f).Steady := by
  intro k b l h
  obtain ⟨⟨a, k'⟩, ha, hb⟩ := Option.bind_eq_some_iff.mp h
  obtain ⟨hs, he⟩ := hx ha
  obtain ⟨hs', he'⟩ := hf a hb
  exact ⟨hs'.trans hs, he'.trans he⟩

theorem Steady.get {f : Outline → Check β} (h : ∀ k, (f k).Steady) : (get >>= f).Steady :=
  fun k _ _ hx => h k hx

theorem Steady.ite {c : Prop} [Decidable c] {y : Check α} (hx : x.Steady) (hy : y.Steady) :
    (if c then x else y).Steady := by
  split
  case isTrue => exact hx
  case isFalse => exact hy

theorem pure_steady (a : α) : Steady (pure a) :=
  (Plain.pure a).steady

theorem truncate_steady (height : Nat) : (truncate height).Steady := by
  rintro k _ _ ⟨⟩
  exact ⟨rfl, rfl⟩

theorem die_steady : die.Steady :=
  .get fun _ => (truncate_steady _).bind fun _ => by
    rintro k _ _ ⟨⟩
    exact ⟨rfl, rfl⟩

theorem popCondition_steady : popCondition.Steady :=
  (Plain.take popCondition_iff).steady

theorem conclude_steady (result : Option Scalar) : (conclude result).Steady := by
  cases result
  case none => exact pure_steady ()
  case some type => exact (popTyped_plain type).steady

theorem eq_of_peek {type : Scalar} (h : peek k = some (type, l)) : l = k := by
  obtain ⟨stack, brackets, isDead, isEnded⟩ := k
  rcases stack with _ | ⟨_ | _, rest⟩
  case nil => cases h
  case cons.comparison => cases h
  case cons.value found =>
    change (if _ < _ then _ else _ : Check Scalar) _ = _ at h
    split at h <;> cases h
    rfl

theorem previewResult_steady (result : Option Scalar) : (previewResult result).Steady := by
  cases result
  case none => exact pure_steady ()
  case some type =>
    refine Steady.bind (fun k found l h => ?_) fun _ => guard_plain.steady
    rw [eq_of_peek h]
    exact ⟨rfl, rfl⟩

theorem shapes_leave {depth : Nat} {b : Bracket} (hb : k.brackets[depth]? = some b) :
    ({ k with brackets := k.brackets.set depth b.leave } : Outline).shapes = k.shapes := by
  obtain ⟨hlt, rfl⟩ := List.getElem?_eq_some_iff.mp hb
  have hlt' : depth < (k.brackets.map Bracket.shape).length := by rwa [List.length_map]
  have hset := List.set_getElem_self hlt'
  rw [List.getElem_map] at hset
  rwa [Outline.shapes, List.map_set]

theorem leave_steady (depth : Nat) : (leave depth).Steady := by
  intro k isBody l h
  change (if depth = k.brackets.length then _ else _ : Check Bool) k = _ at h
  split at h
  case isTrue =>
    cases h
    exact ⟨rfl, rfl⟩
  case isFalse =>
    cases hb : k.brackets[depth]? <;> rw [hb] at h
    case none => cases h
    case some b =>
      change (if b.shape = .loop then _ else _ : Check Bool) k = _ at h
      split at h
      case isTrue =>
        cases h
        exact ⟨rfl, rfl⟩
      case isFalse =>
        cases hr : b.result <;> rw [hr] at h
        case none =>
          cases h
          exact ⟨shapes_leave hb, rfl⟩
        case some type =>
          obtain ⟨⟨found, k₁⟩, hp, h₁⟩ := Option.bind_eq_some_iff.mp h
          obtain ⟨⟨_, k₂⟩, hg, h₂⟩ := Option.bind_eq_some_iff.mp h₁
          have hk : k₂ = k := (guard_eq_some_iff.mp hg).2.trans (eq_of_peek hp)
          cases h₂
          rw [hk]
          exact ⟨shapes_leave hb, rfl⟩

theorem branch_steady (depth : Nat) : (branch env depth).Steady :=
  .get fun _ => .ite (pure_steady ()) <| (leave_steady depth).bind fun _ =>
    .ite ((conclude_steady _).bind fun _ => die_steady) die_steady

theorem branchIf_steady (depth : Nat) : (branchIf env depth).Steady :=
  popCondition_steady.bind fun _ => .get fun _ => .ite (pure_steady ()) <|
    (leave_steady depth).bind fun _ => .ite (previewResult_steady _) (pure_steady ())

theorem return_steady : (return_ env).Steady :=
  .get fun _ => .ite (pure_steady ()) <| (conclude_steady _).bind fun _ => die_steady

theorem step_steady {i : Instruction} (hi : i.isPlain = true) : (step env i).Steady := by
  cases i
  case br depth => exact branch_steady depth
  case brIf depth => exact branchIf_steady depth
  case return_ => exact return_steady
  case block | loop | if_ | else_ | end_ => cases hi
  all_goals exact (step_inside_plain trivial).steady

-- An `else` turns the innermost region, which is an `if`.
theorem shapes_of_turn (h : turn k = some ((), l)) :
    ∃ outer, k.shapes = .if_ :: outer ∧ l.shapes = .else_ :: outer := by
  obtain ⟨stack, brackets, isDead, isEnded⟩ := k
  cases brackets
  case nil => cases h
  case cons b bs =>
    obtain ⟨⟨_, k₁⟩, hg, h₁⟩ := Option.bind_eq_some_iff.mp h
    obtain ⟨⟨_, k₂⟩, _, h₂⟩ := Option.bind_eq_some_iff.mp h₁
    have hs : b.shape = .if_ := (guard_eq_some_iff.mp hg).1
    cases h₂
    exact ⟨bs.map Bracket.shape, by rw [Outline.shapes, List.map_cons, hs], rfl⟩

-- An end closes the innermost region, or the body if there is none.
theorem shapes_of_close (h : close k = some ((), l)) :
    k.shapes = [] ∧ l.isEnded = true ∨ ∃ shape, k.shapes = shape :: l.shapes := by
  obtain ⟨stack, brackets, isDead, isEnded⟩ := k
  cases brackets
  case nil =>
    cases h
    exact .inl ⟨rfl, rfl⟩
  case cons b bs =>
    obtain ⟨⟨_, k₁⟩, _, h₁⟩ := Option.bind_eq_some_iff.mp h
    obtain ⟨⟨_, k₂⟩, _, h₂⟩ := Option.bind_eq_some_iff.mp h₁
    cases h₂
    exact .inr ⟨b.shape, rfl⟩

-- Nothing may follow the end of the body.
theorem code_eq_nil_of_isEnded {code : List Instruction} (hx : Check.code env code k = some ((), l))
    (he : k.isEnded = true) : code = [] := by
  cases code
  case nil => rfl
  case cons i rest =>
    obtain ⟨hn, _⟩ := code_cons_iff.mp hx
    rw [hn] at he
    cases he

theorem shapes_of_enter {shape : Shape} {type : BlockType}
    (h : (match resultOf type with
      | some result => enter shape result
      | _ => failure : Check Unit) k = some ((), l)) : l.shapes = shape :: k.shapes := by
  cases type <;> cases h <;> rfl

-- Code that closes all regions is the rest of those that are open at its start.
theorem closing_of_code {code : List Instruction} (hx : Check.code env code k = some ((), l))
    (hl : l.brackets = []) : Closing k.shapes code := by
  induction code generalizing k
  case nil =>
    cases hx
    rw [Outline.shapes, hl]
    exact .body ⟨[], .nil, .inl rfl⟩
  case cons i rest ih =>
    obtain ⟨_, u, hs, hr⟩ := code_cons_iff.mp hx
    have hc : Closing u.shapes rest := ih hr
    by_cases hp : i.isPlain = true
    case pos =>
      rw [(step_steady hp hs).1] at hc
      exact hc.plain hp
    case neg =>
      cases i
      case block => exact Closing.block (shapes_of_enter hs ▸ hc)
      case loop => exact Closing.loop (shapes_of_enter hs ▸ hc)
      case if_ =>
        obtain ⟨⟨_, k'⟩, hpop, he⟩ := Option.bind_eq_some_iff.mp hs
        rw [shapes_of_enter he, (popCondition_steady hpop).1] at hc
        exact hc.if_
      case else_ =>
        obtain ⟨outer, hk, hu⟩ := shapes_of_turn hs
        rw [hk]
        exact .else_ .nil (hu ▸ hc)
      case end_ =>
        rcases shapes_of_close hs with ⟨hk, he⟩ | ⟨shape, hk⟩
        · rw [hk, code_eq_nil_of_isEnded hr he]
          exact .body ⟨[], .nil, .inr rfl⟩
        · rw [hk]
          exact .end_ .nil hc
      all_goals exact absurd rfl hp

end Check

theorem Environment.Accepts.bracketed {env : Environment} {code : List Instruction}
    (h : env.Accepts code) : Bracketed code := by
  obtain ⟨k, hc, hk, _⟩ := accepts_iff.mp h
  cases Check.closing_of_code hc hk
  case body h => exact h

end Typing

open Lowering (Options)

-- The bodies of a module that can be lowered are properly bracketed.
theorem Bytecode.Module.lower_bracketed {m : Bytecode.Module} {options : Options} {j j' : Journal}
    {module : Ssa.Module} (h : m.lower options j = .ok module j') (body : Bytecode.Body)
    (hb : body ∈ m.bodies) : Typing.Bracketed body.code := by
  obtain ⟨_, _, hbodies⟩ := lower_isOk_iff.mp ⟨module, j', h⟩
  obtain ⟨_, _, _, haccepts⟩ := hbodies body hb
  exact haccepts.bracketed

-- A function that returns from within a block, with a loop and both branches of an `if` in the dead
-- code behind.
def Bytecode.Module.buried : Bytecode.Module where
  types := [⟨[.i32], []⟩]
  bodies := [{
    type := 0
    locals := []
    code := [.block .empty, .localGet 0, .brIf 0, .return_, .loop .empty, .localGet 0, .if_ .empty,
      .nop, .else_, .br 7, .end_, .end_, .end_, .end_] }]

theorem Bytecode.Module.lower_bracketed_buried :
    ∃ module j', buried.lower {} #[] = .ok module j' ∧
      Typing.Bracketed [.block .empty, .localGet 0, .brIf 0, .return_, .loop .empty, .localGet 0,
        .if_ .empty, .nop, .else_, .br 7, .end_, .end_, .end_, .end_] := by
  obtain ⟨module, j', h⟩ : ∃ module j', buried.lower {} #[] = .ok module j' := by
    refine lower_isOk_iff.mpr ⟨by simp [buried], by simp [buried], ?_⟩
    simp only [buried, List.forall_mem_singleton]
    exact ⟨⟨[.i32], []⟩, rfl, by decide, by decide⟩
  exact ⟨module, j', h, lower_bracketed h _ List.mem_cons_self⟩

end StackCompiler
