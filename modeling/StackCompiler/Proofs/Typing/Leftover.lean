import StackCompiler.Proofs.DeadCode.Idle
import StackCompiler.Proofs.Typing.Nesting

-- Operands that dead code leaves behind. Dead code that follows them passes the check without them
-- too: below the start of its region it finds whatever it needs.

namespace StackCompiler.Typing

open Bytecode (Instruction)

variable {env : Environment} {k k' l l' : Outline} {b : Bracket} {bs bs' : List Bracket}
variable {items extra below below' stack stack' : List Item} {item : Item} {ty : Scalar}
variable {i : Instruction} {code dead rest : List Instruction}

namespace Check

-- Computations that only take operands and leave others.
inductive Plain : {α : Type} → Check α → Prop
  | pure {α : Type} (a : α) : Plain (pure a)
  | fail {α : Type} : Plain (failure : Check α)
  | push (item : Item) : Plain (push item)
  | take {x : Check Unit} {d : Demand} (h : ∀ {k l}, x k = some ((), l) ↔ k.Takes d l) : Plain x
  | bind {α β : Type} {x : Check α} {f : α → Check β} (hx : Plain x) (hf : ∀ a, Plain (f a)) :
    Plain (x >>= f)

theorem guard_plain {p : Prop} [Decidable p] : Plain (guard p) := by
  unfold guard
  split
  case isTrue => exact .pure ()
  case isFalse => exact .fail

theorem popTyped_plain (ty : Scalar) : Plain (popTyped ty) :=
  .take popTyped_iff

theorem popArguments_plain (types : List Scalar) : Plain (popArguments types) := by
  induction types
  case nil => exact .pure ()
  case cons type types hi => exact hi.bind fun _ => popTyped_plain type

theorem localSet_plain {index : Nat} : Plain (localSet env index) := by
  unfold localSet
  cases env.locals[index]?
  case none => exact .fail
  case some ty => exact (popTyped_plain ty).bind fun _ => .pure _

theorem call_plain {index : Nat} : Plain (call env index) := by
  unfold call
  cases env.callees[index]?
  case none => exact .fail
  case some callee =>
    refine guard_plain.bind fun _ => (popArguments_plain _).bind fun _ => ?_
    cases callee.results.head?
    case none => exact .pure ()
    case some => exact .push _

-- The instructions that neither open nor leave nor close a region.
theorem step_inside_plain (hi : match i with
      | .block _ | .loop _ | .if_ _ | .else_ | .end_ | .br _ | .brIf _ | .return_ => False
      | _ => True) : Plain (step env i) := by
  cases i
  case binary | compare =>
    refine guard_plain.bind fun _ => ?_
    exact (popTyped_plain _).bind fun _ => (popTyped_plain _).bind fun _ => .push _
  case eqz | load => exact (popTyped_plain _).bind fun _ => .push _
  case neg | floor => exact guard_plain.bind fun _ => (popTyped_plain _).bind fun _ => .push _
  case const => exact .push _
  case localGet index =>
    simp only [step]
    cases env.locals[index]?
    case none => exact .fail
    case some => exact .push _
  case localSet =>
    simp only [step, Lowering.Direct.discard_eq_bind]
    exact localSet_plain.bind fun _ => .pure ()
  case localTee => exact localSet_plain.bind fun _ => .push _
  case globalGet index =>
    simp only [step]
    cases env.globals[index]?
    case none => exact .fail
    case some => exact .push _
  case globalSet index =>
    simp only [step]
    cases env.globals[index]?
    case none => exact .fail
    case some => exact guard_plain.bind fun _ => popTyped_plain _
  case store => exact (popTyped_plain _).bind fun _ => popTyped_plain _
  case call => exact call_plain
  case drop => exact .take drop_iff
  case nop => exact .pure ()
  case block | loop | if_ | else_ | end_ | br | brIf | return_ => exact hi.elim
  all_goals exact .fail

end Check

section Depth

-- Nothing but operands of the innermost region has changed.
structure Outline.Shifts (k l : Outline) : Prop where
  brackets : l.brackets = k.brackets
  isDead : l.isDead = k.isDead
  isEnded : l.isEnded = k.isEnded
  stack : ∀ {below}, below <:+ k.stack → below.length ≤ k.floor → below <:+ l.stack

theorem Outline.Shifts.refl (k : Outline) : k.Shifts k :=
  ⟨rfl, rfl, rfl, fun h _ => h⟩

theorem Outline.Shifts.trans {m : Outline} (h₁ : k.Shifts l) (h₂ : l.Shifts m) : k.Shifts m where
  brackets := h₂.brackets.trans h₁.brackets
  isDead := h₂.isDead.trans h₁.isDead
  isEnded := h₂.isEnded.trans h₁.isEnded
  stack hb hf := h₂.stack (h₁.stack hb hf) (by rwa [Outline.floor, h₁.brackets, ← Outline.floor])

theorem Outline.Takes.shifts {d : Demand} (h : k.Takes d l) : k.Shifts l := by
  cases h
  case item rest hp hs hf =>
    refine ⟨rfl, rfl, rfl, fun {below} hb hle => ?_⟩
    rw [hs] at hb
    exact List.suffix_of_suffix_length_le hb (List.suffix_cons ..) (hle.trans hf)
  case nothing => exact .refl k

theorem Check.Plain.shifts {α : Type} {x : Check α} {a : α} (h : x.Plain) (hx : x k = some (a, l)) :
    k.Shifts l := by
  induction h generalizing k l
  case pure =>
    cases hx
    exact .refl k
  case fail => cases hx
  case push item =>
    cases hx
    exact ⟨rfl, rfl, rfl, fun hb _ => hb.trans (List.suffix_cons ..)⟩
  case take h => exact (h.mp hx).shifts
  case bind hi hf =>
    obtain ⟨⟨a', l'⟩, hx, hf'⟩ := Option.bind_eq_some_iff.mp hx
    exact (hi hx).trans (hf a' hf')

-- What is left of the stack when a region ends in dead code.
def Outline.cut (k : Outline) (height : Nat) : List Item :=
  k.stack.drop (k.stack.length - height)

theorem Outline.cut_eq (hs : k.stack = items ++ below) : k.cut below.length = below := by
  rw [cut, hs, List.length_append, Nat.add_sub_cancel, List.drop_left]

theorem Outline.suffix_cut {n : Nat} (hb : below <:+ k.stack) (hn : below.length ≤ n) :
    below <:+ k.cut n := by
  refine List.suffix_of_suffix_length_le hb (List.drop_suffix ..) ?_
  have hlen := hb.length_le
  rw [cut, List.length_drop]
  omega

namespace Check

theorem exists_of_turn (hx : turn k = some ((), l)) :
    ∃ b bs, k.brackets = b :: bs ∧ b.shape = .if_ := by
  obtain ⟨stack, brackets, isDead, isEnded⟩ := k
  cases brackets
  case nil => cases hx
  case cons b bs =>
    obtain ⟨⟨_, _⟩, hg, _⟩ := Option.bind_eq_some_iff.mp hx
    exact ⟨b, bs, rfl, (guard_eq_some_iff.mp hg).1⟩

theorem shape_of_close (hx : close k = some ((), l)) (hb : k.brackets = b :: bs) :
    b.shape = .if_ → b.result = none := by
  obtain ⟨stack, brackets, isDead, isEnded⟩ := k
  cases hb
  obtain ⟨⟨_, _⟩, hg, _⟩ := Option.bind_eq_some_iff.mp hx
  exact (guard_eq_some_iff.mp hg).1

section Dead

variable {depth : Nat} (hd : k.isDead = true)
include hd

theorem finish_of_dead : finish b k = some ((), { k with stack := k.cut b.height }) := by
  change (if k.isDead then _ else _ : Check Unit) k = _
  rw [if_pos hd]
  rfl

theorem branchIf_iff_of_dead : branchIf env depth k = some ((), l) ↔
    popCondition k = some ((), l) := by
  have hrest {m : Outline} (hm : popCondition k = some ((), m)) : branchIf env depth k = some ((), m) := by
    have hdead : m.isDead = true := (popCondition_iff.mp hm).shifts.isDead.trans hd
    refine (bind_eq_of_eq_some hm).trans ?_
    change (if m.isDead then _ else _ : Check Unit) m = _
    rw [if_pos hdead]
    rfl
  refine ⟨fun h => ?_, hrest⟩
  obtain ⟨⟨_, m⟩, hm, _⟩ := Option.bind_eq_some_iff.mp h
  cases (hrest hm).symm.trans h
  exact hm

end Dead

end Check

-- Dead code inside of `n` regions that were opened since `k`, with more operands.
structure Outline.Within (k : Outline) (n : Nat) (l : Outline) : Prop where
  isDead : l.isDead = true
  isEnded : l.isEnded = k.isEnded
  brackets : ∃ new, new.length = n ∧ l.brackets = new ++ k.brackets ∧
    ∀ b ∈ new, b.isLive = false ∧ k.stack.length ≤ b.height
  stack : k.stack <:+ l.stack

section Within

variable {n m : Nat} (hk : k.stack.length ≤ k.floor) (h : k.Within n l)
include hk h

theorem Outline.Within.floor_le : k.stack.length ≤ l.floor := by
  obtain ⟨new, _, hb, hnew⟩ := h.brackets
  cases new
  case nil => rwa [Outline.floor, hb, List.nil_append, ← Outline.floor]
  case cons b new _ =>
    rw [Outline.floor, hb]
    exact (hnew b (by simp)).2

theorem Outline.Within.shifts (hs : l.Shifts l') : k.Within n l' where
  isDead := hs.isDead.trans h.isDead
  isEnded := hs.isEnded.trans h.isEnded
  brackets := hs.brackets ▸ h.brackets
  stack := hs.stack h.stack (h.floor_le hk)

omit hk

theorem Outline.Within.enter {shape : Shape} {result : Option Scalar} :
    k.Within (n + 1)
      { l with brackets := ⟨shape, result, l.stack.length, !l.isDead, false⟩ :: l.brackets } where
  isDead := h.isDead
  isEnded := h.isEnded
  brackets := by
    obtain ⟨new, rfl, hb, hnew⟩ := h.brackets
    refine ⟨⟨shape, result, l.stack.length, !l.isDead, false⟩ :: new, rfl, by simp [hb], ?_⟩
    exact List.forall_mem_cons.mpr ⟨⟨by simp [h.isDead], h.stack.length_le⟩, hnew⟩
  stack := h.stack

end Within

section Inner

variable {n : Nat} (h : k.Within (n + 1) l)
include h

theorem Outline.Within.exists_inner : ∃ b new, new.length = n ∧ l.brackets = b :: (new ++ k.brackets) ∧
    b.isLive = false ∧ k.stack.length ≤ b.height ∧
    ∀ b ∈ new, b.isLive = false ∧ k.stack.length ≤ b.height := by
  obtain ⟨new, hlen, hb, hnew⟩ := h.brackets
  cases new
  case nil => cases hlen
  case cons b new =>
    obtain ⟨⟨hlive, hheight⟩, hnew⟩ := List.forall_mem_cons.mp hnew
    exact ⟨b, new, Nat.succ.inj hlen, hb, hlive, hheight, hnew⟩

theorem turn_within (hx : Check.turn l = some ((), l')) : k.Within (n + 1) l' := by
  obtain ⟨b, new, rfl, hb, hlive, hheight, hnew⟩ := h.exists_inner
  obtain ⟨_, _, hb', hshape⟩ := Check.exists_of_turn hx
  cases hb.symm.trans hb'
  cases (Check.turn_eq hb hshape (Check.finish_of_dead h.isDead)).symm.trans hx
  refine ⟨by simp [hlive], h.isEnded, ⟨_ :: new, rfl, rfl, ?_⟩, Outline.suffix_cut h.stack hheight⟩
  exact List.forall_mem_cons.mpr ⟨⟨hlive, hheight⟩, hnew⟩

theorem close_within (hx : Check.close l = some ((), l')) : k.Within n l' := by
  obtain ⟨b, new, rfl, hb, hlive, hheight, hnew⟩ := h.exists_inner
  have hshape := Check.shape_of_close hx hb
  cases (Check.close_eq hb hshape (Check.finish_of_dead h.isDead)).symm.trans hx
  refine ⟨by simp [hlive], h.isEnded, ⟨new, rfl, rfl, hnew⟩, ?_⟩
  exact (Outline.suffix_cut h.stack hheight).trans (List.suffix_append ..)

end Inner

theorem step_within {n m : Nat} (hk : k.stack.length ≤ k.floor) (h : k.Within n l)
    (hn : i.nest n = some m) (hx : Check.step env i l = some ((), l')) : k.Within m l' := by
  cases i
  case block type | loop type =>
    cases hn
    simp only [Check.step] at hx
    cases hr : resultOf type <;> rw [hr] at hx <;> cases hx
    exact h.enter
  case if_ type =>
    cases hn
    simp only [Check.step] at hx
    obtain ⟨⟨_, u⟩, hpop, hx⟩ := Option.bind_eq_some_iff.mp hx
    cases hr : resultOf type <;> rw [hr] at hx <;> cases hx
    exact (h.shifts hk (Check.popCondition_iff.mp hpop).shifts).enter
  case else_ =>
    cases n <;> cases hn
    exact turn_within h hx
  case end_ =>
    cases n <;> cases hn
    exact close_within h hx
  case br =>
    cases hn
    cases (Check.branch_of_dead h.isDead).symm.trans hx
    exact h
  case brIf =>
    cases hn
    exact h.shifts hk (Check.popCondition_iff.mp ((Check.branchIf_iff_of_dead h.isDead).mp hx)).shifts
  case return_ =>
    cases hn
    cases (Check.return_of_dead h.isDead).symm.trans hx
    exact h
  all_goals
    cases hn
    exact h.shifts hk ((Check.step_inside_plain trivial).shifts hx)

-- Balanced dead code changes nothing but operands.
theorem code_within {n m : Nat} (hk : k.stack.length ≤ k.floor) (h : k.Within n l)
    (hn : code.foldlM (fun n i => i.nest n) n = some m) (hx : Check.code env code l = some ((), l')) :
    k.Within m l' := by
  induction code generalizing l n
  case nil =>
    cases hn
    cases hx
    exact h
  case cons i code hi =>
    obtain ⟨n', hn', hn⟩ := Option.bind_eq_some_iff.mp hn
    obtain ⟨_, u, hstep, hx⟩ := Check.code_cons_iff.mp hx
    exact hi (step_within hk h hn' hstep) hn hx

end Depth

-- The stack on the right lacks some of the operands on the left. Regions that were opened in dead code
-- begin accordingly lower, and what lies below a region of live code is all there.
inductive Spare : List Item → List Bracket → List Item → List Bracket → Prop
  | body {items extra : List Item} : Spare (items ++ extra) [] items []
  | start {items extra below : List Item} {b : Bracket} {bs : List Bracket}
    (hb : b.height = below.length) :
    Spare (items ++ extra ++ below) (b :: bs) (items ++ below) (b :: bs)
  | region {items extra below below' : List Item} {b : Bracket} {bs bs' : List Bracket}
    (hb : b.height = below.length) (hl : b.isLive = false) (h : Spare below bs below' bs') :
    Spare (items ++ extra ++ below) (b :: bs) (items ++ below')
      ({ b with height := below'.length } :: bs')

structure Outline.Exceeds (k l : Outline) : Prop where
  isDead : k.isDead = true
  isDead' : l.isDead = true
  isEnded : l.isEnded = k.isEnded
  spare : Spare k.stack k.brackets l.stack l.brackets

namespace Outline.Exceeds

theorem exists_innermost (h : k.Exceeds l) : ∃ items extra below below',
    k.stack = items ++ extra ++ below ∧ k.floor = below.length ∧
    l.stack = items ++ below' ∧ l.floor = below'.length ∧
    ∀ {items extra}, Exceeds { k with stack := items ++ extra ++ below }
      { l with stack := items ++ below' } := by
  obtain ⟨stack, brackets, isDead, isEnded⟩ := k
  obtain ⟨stack', brackets', isDead', isEnded'⟩ := l
  obtain ⟨hd, hd', he, hs⟩ := h
  simp only at hd hd' he hs
  cases hs
  case body extra =>
    refine ⟨stack', extra, [], [], by simp, rfl, by simp, rfl, ⟨hd, hd', he, ?_⟩⟩
    simp only [List.append_nil]
    exact .body
  case start items extra below b bs hb =>
    exact ⟨items, extra, below, below, rfl, hb, rfl, hb, ⟨hd, hd', he, .start hb⟩⟩
  case region items extra below below' b bs bs' hb hl h =>
    exact ⟨items, extra, below, below', rfl, hb, rfl, rfl, ⟨hd, hd', he, .region hb hl h⟩⟩

theorem push (h : k.Exceeds l) (items : List Item) :
    Exceeds { k with stack := items ++ k.stack } { l with stack := items ++ l.stack } := by
  obtain ⟨items', extra, below, below', hs, _, hs', _, hr⟩ := h.exists_innermost
  simp only [hs, hs', ← List.append_assoc]
  exact hr

-- What is not there is made up for.
theorem takes {d : Demand} (h : k.Exceeds l) (ht : k.Takes d k') :
    ∃ l', l.Takes d l' ∧ k'.Exceeds l' := by
  obtain ⟨items, extra, below, below', hs, hf, hs', hf', hr⟩ := h.exists_innermost
  cases items
  case nil =>
    have hl : l = { l with stack := [] ++ below' } := by rw [← hs']
    refine ⟨l, .nothing h.isDead' (by simp [hs', hf']), ?_⟩
    cases ht
    case nothing => exact h
    case item item rest hp hk hrest =>
      cases extra
      case nil =>
        have hlen := congrArg List.length (hs.symm.trans hk)
        simp only [List.nil_append, List.length_cons] at hlen
        omega
      case cons e extra =>
        cases hs.symm.trans hk
        have hless : Exceeds { k with stack := [] ++ extra ++ below }
            { l with stack := [] ++ below' } := hr
        rw [← hl] at hless
        exact hless
  case cons item items =>
    cases ht
    case nothing hfloor =>
      simp only [hs, hf, List.length_append, List.length_cons] at hfloor
      omega
    case item hp hk hrest =>
      cases hs.symm.trans hk
      exact ⟨_, .item hp hs' (by simp [hf']), hr⟩

-- The innermost region. What lies below it is the same, unless it was opened in dead code.
theorem of_cons (h : k.Exceeds l) (hb : k.brackets = b :: bs) :
    ∃ n bs', l.brackets = { b with height := n } :: bs' ∧
      (n = b.height ∧ bs' = bs ∧ l.cut n = k.cut b.height ∨
        b.isLive = false ∧ (k.cut b.height).length = b.height ∧ (l.cut n).length = n ∧
          Spare (k.cut b.height) bs (l.cut n) bs') := by
  obtain ⟨stack, brackets, isDead, isEnded⟩ := k
  obtain ⟨stack', brackets', isDead', isEnded'⟩ := l
  have hs := h.spare
  cases hb
  cases hs
  case start items extra below hheight =>
    refine ⟨_, bs, rfl, .inl ⟨rfl, rfl, ?_⟩⟩
    rw [hheight, cut_eq rfl, cut_eq rfl]
  case region items extra below below' bs' hheight hl hs =>
    refine ⟨_, bs', rfl, .inr ⟨hl, ?_⟩⟩
    rw [hheight, cut_eq rfl, cut_eq rfl]
    exact ⟨rfl, rfl, hs⟩

theorem of_nil (h : k.Exceeds l) (hb : k.brackets = []) : l.brackets = [] := by
  obtain ⟨stack, brackets, isDead, isEnded⟩ := k
  obtain ⟨stack', brackets', isDead', isEnded'⟩ := l
  have hs := h.spare
  cases hb
  cases hs
  rfl

end Outline.Exceeds

-- The computation succeeds without the spare operands if it does with them, and with the same result.
def Check.Lax {α : Type} (x : Check α) : Prop :=
  ∀ ⦃k l k' : Outline⦄ ⦃a : α⦄, k.Exceeds l → x k = some (a, k') →
    ∃ l', x l = some (a, l') ∧ (k' = l' ∨ k'.Exceeds l')

namespace Check

theorem Lax.bind {α β : Type} {x : Check α} {f : α → Check β} (hx : x.Lax) (hf : ∀ a, (f a).Lax) :
    (x >>= f).Lax := by
  intro k l k' b h hk
  obtain ⟨⟨a, m⟩, hm, hk⟩ := Option.bind_eq_some_iff.mp hk
  obtain ⟨m', hm', rfl | h⟩ := hx h hm
  · exact ⟨k', (bind_eq_of_eq_some hm').trans hk, .inl rfl⟩
  · obtain ⟨l', hl', h⟩ := hf a h hk
    exact ⟨l', (bind_eq_of_eq_some hm').trans hl', h⟩

theorem Plain.lax {α : Type} {x : Check α} (h : x.Plain) : x.Lax := by
  induction h
  case pure =>
    rintro k l _ _ h ⟨⟩
    exact ⟨l, rfl, .inr h⟩
  case fail =>
    intro _ _ _ _ _ hk
    cases hk
  case push item =>
    rintro k l _ _ h ⟨⟩
    exact ⟨_, rfl, .inr (h.push [item])⟩
  case take ht =>
    intro k l k' _ h hk
    obtain ⟨l', hl, h⟩ := h.takes (ht.mp hk)
    exact ⟨l', ht.mpr hl, .inr h⟩
  case bind hi hf => exact hi.bind hf

theorem enter_lax {shape : Shape} {result : Option Scalar} : (enter shape result).Lax := by
  rintro k l _ _ h ⟨⟩
  have hs : Spare ([] ++ [] ++ k.stack) (⟨shape, result, k.stack.length, !true, false⟩ :: k.brackets)
      ([] ++ l.stack) (⟨shape, result, l.stack.length, !true, false⟩ :: l.brackets) :=
    .region rfl rfl h.spare
  refine ⟨_, rfl, .inr ⟨h.isDead, h.isDead', h.isEnded, ?_⟩⟩
  dsimp only
  rw [h.isDead, h.isDead']
  exact hs

theorem turn_lax : turn.Lax := by
  intro k l k' _ h hk
  obtain ⟨b, bs, hb, hshape⟩ := exists_of_turn hk
  cases (turn_eq hb hshape (finish_of_dead h.isDead)).symm.trans hk
  obtain ⟨n, bs', hb', hcase⟩ := h.of_cons hb
  refine ⟨_, turn_eq hb' hshape (finish_of_dead h.isDead'), ?_⟩
  rw [h.isDead, h.isDead', h.isEnded]
  rcases hcase with ⟨rfl, rfl, hcut⟩ | ⟨hl, hlen, hlen', hs⟩
  · rw [hcut]
    exact .inl rfl
  · refine .inr ⟨by simp [hl], by simp [hl], rfl, ?_⟩
    have hs : Spare ([] ++ [] ++ k.cut b.height) ({ b with shape := .else_, isLeft := b.isLeft || !true } :: bs)
        ([] ++ l.cut n) ({ b with shape := .else_, height := (l.cut n).length, isLeft := b.isLeft || !true } :: bs') :=
      .region hlen.symm hl hs
    rw [hlen'] at hs
    exact hs

theorem close_lax : close.Lax := by
  intro k l k' _ h hk
  cases hb : k.brackets
  case nil =>
    cases (close_of_nil hb).symm.trans hk
    refine ⟨_, close_of_nil (h.of_nil hb), .inr ⟨h.isDead, h.isDead', rfl, h.spare⟩⟩
  case cons b bs =>
    have hshape := shape_of_close hk hb
    cases (close_eq hb hshape (finish_of_dead h.isDead)).symm.trans hk
    obtain ⟨n, bs', hb', hcase⟩ := h.of_cons hb
    refine ⟨_, close_eq hb' hshape (finish_of_dead h.isDead'), ?_⟩
    rw [h.isDead, h.isDead', h.isEnded]
    rcases hcase with ⟨rfl, rfl, hcut⟩ | ⟨hl, _, _, hs⟩
    · rw [hcut]
      exact .inl rfl
    · have hcut : Outline.Exceeds ⟨k.cut b.height, bs, true, k.isEnded⟩ ⟨l.cut n, bs', true, k.isEnded⟩ :=
        ⟨rfl, rfl, rfl, hs⟩
      rw [hl]
      exact .inr (hcut.push _)

-- Jumps in dead code do nothing.
theorem step_lax : (step env i).Lax := by
  cases i
  case block type | loop type =>
    simp only [step]
    cases resultOf type
    case none => exact Plain.fail.lax
    case some => exact enter_lax
  case if_ type =>
    simp only [step]
    refine (Plain.take popCondition_iff).lax.bind fun _ => ?_
    cases resultOf type
    case none => exact Plain.fail.lax
    case some => exact enter_lax
  case else_ => exact turn_lax
  case end_ => exact close_lax
  case br =>
    intro k l k' _ h hk
    cases (branch_of_dead h.isDead).symm.trans hk
    exact ⟨l, branch_of_dead h.isDead', .inr h⟩
  case brIf =>
    intro k l k' _ h hk
    have hpop := (branchIf_iff_of_dead h.isDead).mp hk
    obtain ⟨l', hl, hl'⟩ := (Plain.take popCondition_iff).lax h hpop
    exact ⟨l', (branchIf_iff_of_dead h.isDead').mpr hl, hl'⟩
  case return_ =>
    intro k l k' _ h hk
    cases (return_of_dead h.isDead).symm.trans hk
    exact ⟨l, return_of_dead h.isDead', .inr h⟩
  all_goals exact (step_inside_plain trivial).lax

theorem code_lax : (Check.code env code).Lax := by
  induction code
  case nil => exact (Plain.pure ()).lax
  case cons i code hi =>
    intro k l k' _ h hk
    obtain ⟨he, u, hstep, hk⟩ := code_cons_iff.mp hk
    have he' := h.isEnded.trans he
    obtain ⟨u', hstep', rfl | hu⟩ := step_lax h hstep
    · exact ⟨k', code_cons_iff.mpr ⟨he', u, hstep', hk⟩, .inl rfl⟩
    · obtain ⟨l', hl, hl'⟩ := hi hu hk
      exact ⟨l', code_cons_iff.mpr ⟨he', u', hstep', hl⟩, hl'⟩

theorem code_append {code' : List Instruction} : Check.code env (code ++ code') =
    (do Check.code env code; Check.code env code') := by
  induction code
  case nil => rfl
  case cons i code hi => simp only [List.cons_append, Check.code, hi, bind_assoc]

end Check

-- Balanced dead code only adds operands.
theorem exceeds_of_code {a : Unit} (hd : k.isDead = true) (hf : k.stack.length = k.floor)
    (hb : Bytecode.Balanced dead) (hx : Check.code env dead k = some (a, l)) : l.Exceeds k := by
  have hk : k.Within 0 k := ⟨hd, rfl, ⟨[], rfl, rfl, by simp⟩, List.suffix_rfl⟩
  have h := code_within hf.le hk hb hx
  obtain ⟨new, hlen, hbs, _⟩ := h.brackets
  cases List.length_eq_zero_iff.mp hlen
  obtain ⟨extra, hs⟩ := h.stack
  refine ⟨h.isDead, hd, h.isEnded.symm, ?_⟩
  rw [hbs, ← hs, List.nil_append]
  cases hk : k.brackets
  case nil =>
    rw [Outline.floor, hk, List.length_eq_zero_iff] at hf
    have hs : Spare ([] ++ extra) [] [] [] := .body
    rw [hf, List.append_nil]
    exact hs
  case cons b bs =>
    rw [Outline.floor, hk] at hf
    have hs : Spare ([] ++ extra ++ k.stack) (b :: bs) ([] ++ k.stack) (b :: bs) := .start hf.symm
    exact hs

-- Code that passes the check with balanced dead code passes it without, if nothing is on the stack
-- where the dead code begins.
theorem accepts_of_balanced (hp : Check.code env code {} = some ((), k)) (hd : k.isDead = true)
    (hf : k.stack.length = k.floor) (hb : Bytecode.Balanced dead)
    (h : env.Accepts (code ++ dead ++ rest)) : env.Accepts (code ++ rest) := by
  obtain ⟨u, hu, hbs, hend⟩ := accepts_iff.mp h
  rw [List.append_assoc, Check.code_append, bind_eq_of_eq_some hp, Check.code_append] at hu
  obtain ⟨⟨_, l⟩, hl, hu⟩ := Option.bind_eq_some_iff.mp hu
  obtain ⟨u', hu', hcase⟩ := Check.code_lax (exceeds_of_code hd hf hb hl) hu
  refine accepts_iff.mpr ⟨u', ?_, ?_⟩
  · rw [Check.code_append, bind_eq_of_eq_some hp]
    exact hu'
  · rcases hcase with rfl | hu
    · exact ⟨hbs, hend⟩
    · exact ⟨hu.of_nil hbs, by simp [hu.isDead']⟩

end StackCompiler.Typing
