import StackCompiler.Proofs.Typing.Operands
import StackCompiler.Proofs.Typing.Validation

-- What passes validation passes the check of the lowering too, as long as dead code accepts the operands
-- that it finds because jumps left them behind.

namespace StackCompiler.Typing

open Bytecode (Instruction)

variable {env : Environment} {dead : Bool} {items left extra below below' stack stack' : List Item}
variable {bs : List Bracket} {cs : List Control} {b : Bracket} {c : Control} {depth : Nat}
variable {k l : Outline} {v w : Validation} {counts : List Nat} {ds : List Demand}

-- Both know the same `items` of a region. Below them, the check has those that jumps in dead code `left`
-- behind, and validation may know some `extra` ones, which dead code can do without. It is never behind
-- a branch in live code.
inductive Covers (env : Environment) :
    Bool → List Item → List Bracket → List Nat → List Item → List Control → Prop
  | body {dead isUnreachable : Bool} {items left extra : List Item}
    (hl : dead = false → left = [] ∧ extra = [] ∧ isUnreachable = false) :
    Covers env dead (items ++ left) [] [left.length] (items ++ extra)
      [⟨.block, env.result, 0, isUnreachable⟩]
  | region {dead isLive isLeft isUnreachable : Bool} {items left extra below below' : List Item}
    {shape : Shape} {result : Option Scalar} {bs : List Bracket} {counts : List Nat} {cs : List Control}
    (hl : dead = false → left = [] ∧ extra = [] ∧ isUnreachable = false ∧ isLive = true)
    (h : Covers env (!isLive) below bs counts below' cs) :
    Covers env dead (items ++ left ++ below) (⟨shape, result, below.length, isLive, isLeft⟩ :: bs)
      (left.length :: counts) (items ++ extra ++ below')
      (⟨shape, result, below'.length, isUnreachable⟩ :: cs)

structure Outline.Covered (env : Environment) (k : Outline) (v : Validation) (counts : List Nat) :
    Prop where
  isEnded : k.isEnded = false
  covers : Covers env k.isDead k.stack k.brackets counts v.stack v.controls

-- The innermost region, which can be replaced.
structure Innermost (env : Environment) (k : Outline) (v : Validation)
    (items left extra below below' : List Item) (counts : List Nat) (c : Control)
    (outer : List Control) : Prop where
  isEnded : k.isEnded = false
  stack : k.stack = items ++ left ++ below
  floor : k.floor = below.length
  stack' : v.stack = items ++ extra ++ below'
  controls : v.controls = c :: outer
  height : c.height = below'.length
  live : k.isDead = false → left = [] ∧ extra = [] ∧ c.isUnreachable = false
  replace : ∀ {isDead isUnreachable items left extra},
    (isDead = false → left = [] ∧ extra = [] ∧ isUnreachable = false ∧ k.isDead = false) →
    Covers env isDead (items ++ left ++ below) k.brackets (left.length :: counts)
      (items ++ extra ++ below') ({ c with isUnreachable := isUnreachable } :: outer)

-- No region is open, so that it is the body.
theorem Outline.Covered.of_nil (h : k.Covered env v counts) (hb : k.brackets = []) :
    ∃ items left extra isUnreachable, counts = [left.length] ∧
      Innermost env k v items left extra [] [] [] ⟨.block, env.result, 0, isUnreachable⟩ [] := by
  obtain ⟨he, h⟩ := h
  rw [hb] at h
  generalize hc : v.controls = cs at h
  generalize hs : k.stack = stack at h
  generalize hs' : v.stack = stack' at h
  cases h
  case body isUnreachable items left extra hl =>
    refine ⟨items, left, extra, isUnreachable, rfl, he, by simp [hs], by simp [Outline.floor, hb],
      by simp [hs'], hc, rfl, hl, ?_⟩
    intro _ _ _ _ _ hd
    rw [hb, List.append_nil, List.append_nil]
    exact .body fun hd' => ⟨(hd hd').1, (hd hd').2.1, (hd hd').2.2.1⟩

-- The innermost region as both know it, and what it stands in.
theorem Outline.Covered.of_cons (h : k.Covered env v counts) (hb : k.brackets = b :: bs) :
    ∃ items left extra below below' counts' c outer, counts = left.length :: counts' ∧
      Innermost env k v items left extra below below' counts' c outer ∧
      b.shape = c.shape ∧ b.result = c.result ∧ b.height = below.length ∧
      Covers env (!b.isLive) below bs counts' below' outer := by
  obtain ⟨he, h⟩ := h
  rw [hb] at h
  generalize hc : v.controls = cs at h
  generalize hs : k.stack = stack at h
  generalize hs' : v.stack = stack' at h
  cases h
  case region isLive isLeft isUnreachable items left extra below below' shape result counts' cs hl h =>
    refine ⟨items, left, extra, below, below', counts', ⟨shape, result, below'.length, isUnreachable⟩,
      cs, rfl, ?_, rfl, rfl, rfl, h⟩
    refine ⟨he, hs, by simp [Outline.floor, hb], hs', hc, rfl,
      fun hd => ⟨(hl hd).1, (hl hd).2.1, (hl hd).2.2.1⟩, ?_⟩
    intro _ _ _ _ _ hd
    rw [hb]
    exact .region (fun hd' => ⟨(hd hd').1, (hd hd').2.1, (hd hd').2.2.1, (hl (hd hd').2.2.2).2.2.2⟩) h

theorem Outline.Covered.exists_innermost (h : k.Covered env v counts) :
    ∃ items left extra below below' counts' c outer, counts = left.length :: counts' ∧
      Innermost env k v items left extra below below' counts' c outer := by
  cases hb : k.brackets
  case nil =>
    obtain ⟨items, left, extra, isUnreachable, hcounts, hi⟩ := h.of_nil hb
    exact ⟨_, _, _, _, _, _, _, _, hcounts, hi⟩
  case cons =>
    obtain ⟨items, left, extra, below, below', counts', c, outer, hcounts, hi, _⟩ := h.of_cons hb
    exact ⟨_, _, _, _, _, _, _, _, hcounts, hi⟩

section Innermost

variable {counts : List Nat} {outer : List Control}
variable (h : Innermost env k v items left extra below below' counts c outer)
include h

-- Other operands of the innermost region.
theorem Innermost.covered {items' left' extra' : List Item}
    (hl : k.isDead = false → left' = [] ∧ extra' = []) :
    Outline.Covered env { k with stack := items' ++ left' ++ below }
      { v with stack := items' ++ extra' ++ below' } (left'.length :: counts) := by
  refine ⟨h.isEnded, ?_⟩
  rw [h.controls]
  exact h.replace fun hd => ⟨(hl hd).1, (hl hd).2, (h.live hd).2.2, hd⟩

theorem Innermost.operands : k.operands = items ++ left :=
  Outline.operands_eq h.stack h.floor

end Innermost

-- The demands are still to be met. Once they are, the regions have `counts` of leftovers.
inductive Outline.Awaits (env : Environment) (demands : List Demand) (k : Outline) (v : Validation)
    (counts : List Nat) : Prop
  | intro {n : Nat} {outer : List Nat} (covered : k.Covered env v (n :: outer))
    (suits : k.suits demands n = true)
    (counts_eq : counts = min n (k.operands.length - demands.length) :: outer)

-- Nothing is left to be met.
theorem Outline.Awaits.covered (h : k.Awaits env [] v counts) : k.Covered env v counts := by
  obtain ⟨hcovered, _, rfl⟩ := h
  obtain ⟨items, left, _, _, _, _, _, _, hcounts, hi⟩ := hcovered.exists_innermost
  cases hcounts
  have hmin : min left.length (k.operands.length - ([] : List Demand).length) = left.length := by
    simp [hi.operands]
  rwa [hmin]

theorem Validate.pop_eq {outer : List Control} (hc : v.controls = c :: outer) :
    Validate.pop v =
      if v.stack.length ≤ c.height then if c.isUnreachable then some (none, v) else none
      else match v.stack with
        | [] => none
        | top :: rest => some (some top, { v with stack := rest }) := by
  obtain ⟨stack, controls⟩ := v
  subst hc
  change (if stack.length ≤ c.height then _ else _ : Validate (Option Item)) _ = _
  split
  case isTrue => cases c.isUnreachable <;> rfl
  case isFalse => cases stack <;> rfl

-- What validation takes off the stack.
theorem Innermost.pop_cases {o : Option Item} {outer : List Control}
    (hi : Innermost env k v items left extra below below' counts c outer)
    (hv : Validate.pop v = some (o, w)) :
    (∃ item rest, o = some item ∧ items ++ extra = item :: rest ∧
      w = { v with stack := rest ++ below' }) ∨
    o = none ∧ items = [] ∧ extra = [] ∧ c.isUnreachable = true ∧ w = v := by
  rw [Validate.pop_eq hi.controls, hi.stack', hi.height] at hv
  cases hknown : items ++ extra
  case nil =>
    rw [hknown, if_pos (by simp)] at hv
    split at hv
    case isTrue hu =>
      cases hv
      obtain ⟨hitems, hextra⟩ := List.append_eq_nil_iff.mp hknown
      exact .inr ⟨rfl, hitems, hextra, hu, rfl⟩
    case isFalse => cases hv
  case cons item rest =>
    rw [hknown, if_neg (by simp only [List.length_append, List.length_cons]; omega)] at hv
    cases hv
    exact .inl ⟨item, rest, rfl, rfl, rfl⟩

theorem Outline.suits_eq (h : k.operands = items ++ left) :
    k.suits ds left.length = ((ds.zip (items ++ left)).drop items.length).all fun x => x.1.accepts x.2 := by
  rw [Outline.suits, h, List.length_append, Nat.add_sub_cancel]

-- Other operands of the innermost region, which suit the demands.
theorem Innermost.awaits {items' left' extra' : List Item} {counts' : List Nat} {outer : List Control}
    (h : Innermost env k v items left extra below below' counts c outer)
    (hl : k.isDead = false → left' = [] ∧ extra' = [])
    (hs : ∀ x ∈ (ds.zip (items' ++ left')).drop items'.length, x.1.accepts x.2 = true)
    (hc : counts' = min left'.length ((items' ++ left').length - ds.length) :: counts) :
    Outline.Awaits env ds { k with stack := items' ++ left' ++ below }
      { v with stack := items' ++ extra' ++ below' } counts' := by
  have hoperands : ({ k with stack := items' ++ left' ++ below } : Outline).operands = items' ++ left' :=
    Outline.operands_eq rfl h.floor
  refine .intro (h.covered hl) ?_ ?_
  · rw [Outline.suits_eq hoperands]
    exact List.all_eq_true.mpr hs
  · rw [hoperands, hc]

-- What validation takes off the stack is known to the check too. If not, the check takes what was left
-- behind, or it can do without.
theorem takes_of_pop {d : Demand} {o : Option Item} (h : k.Awaits env (d :: ds) v counts)
    (hv : Validate.pop v = some (o, w)) (ho : ∀ item, o = some item → d.accepts item = true) :
    ∃ l, k.Takes d l ∧ l.Awaits env ds w counts := by
  obtain ⟨hcovered, hsuits, rfl⟩ := h
  obtain ⟨items, left, extra, below, below', counts', c, outer, hcounts, hi⟩ :=
    hcovered.exists_innermost
  cases hcounts
  have hfloor (rest : List Item) : k.floor ≤ (rest ++ below).length := by
    rw [hi.floor, List.length_append]
    omega
  rw [Outline.suits_eq hi.operands, List.all_eq_true] at hsuits
  rw [hi.operands]
  cases items
  case cons item items =>
    rcases hi.pop_cases hv with ⟨_, _, rfl, hknown, rfl⟩ | ⟨_, hnil, _⟩
    case inr => cases hnil
    cases hknown
    refine ⟨_, .item (ho item rfl) hi.stack (hfloor (items ++ left)), ?_⟩
    exact hi.awaits (fun hd => ⟨(hi.live hd).1, (hi.live hd).2.1⟩) hsuits (by simp)
  case nil =>
    have hw : ∃ extra', w = { v with stack := [] ++ extra' ++ below' } := by
      rcases hi.pop_cases hv with ⟨_, rest, _, _, rfl⟩ | ⟨_, _, _, _, rfl⟩
      · exact ⟨rest, rfl⟩
      · exact ⟨extra, by rw [← hi.stack']⟩
    have hdead : k.isDead = true := by
      by_contra hd
      obtain ⟨_, rfl, hc⟩ := hi.live (by simpa using hd)
      rcases hi.pop_cases hv with ⟨_, _, _, hknown, _⟩ | ⟨_, _, _, hu, _⟩
      · cases hknown
      · rw [hc] at hu
        cases hu
    obtain ⟨extra', rfl⟩ := hw
    cases left
    case cons item left =>
      obtain ⟨haccepts, hrest⟩ := List.forall_mem_cons.mp hsuits
      refine ⟨_, .item haccepts hi.stack (hfloor left), ?_⟩
      rw [← List.nil_append left] at hrest ⊢
      exact hi.awaits (by simp [hdead]) hrest (by simp; omega)
    case nil =>
      have hk : k = { k with stack := [] ++ [] ++ below } := by rw [← hi.stack]
      refine ⟨k, .nothing hdead (by simp [hi.stack, hi.floor]), ?_⟩
      rw [hk]
      exact hi.awaits (by simp [hdead]) (by simp) (by simp)

-- Whenever the validation succeeds, the check does.
def Follows (x : Validate α) (v : Validation) (y : Check β) (k : Outline)
    (Q : α → Validation → β → Outline → Prop) : Prop :=
  ∀ a w, x v = some (a, w) → ∃ b l, y k = some (b, l) ∧ Q a w b l

section Follows

variable {α β α' β' : Type} {x : Validate α} {y : Check β} {f : α → Validate α'} {g : β → Check β'}
variable {Q : α → Validation → β → Outline → Prop} {R : α' → Validation → β' → Outline → Prop}

theorem Follows.mono {Q' : α → Validation → β → Outline → Prop} (h : Follows x v y k Q)
    (hq : ∀ a w b l, Q a w b l → Q' a w b l) : Follows x v y k Q' := by
  intro a w hx
  obtain ⟨b, l, hy, hQ⟩ := h a w hx
  exact ⟨b, l, hy, hq a w b l hQ⟩

-- The result of the check may be remembered.
theorem Follows.eq_some (h : Follows x v y k Q) :
    Follows x v y k fun a w b l => y k = some (b, l) ∧ Q a w b l := by
  intro a w hx
  obtain ⟨b, l, hy, hQ⟩ := h a w hx
  exact ⟨b, l, hy, hy, hQ⟩

theorem Follows.pure {a : α} {b : β} (h : Q a v b k) : Follows (pure a) v (pure b) k Q := by
  rintro _ _ ⟨⟩
  exact ⟨b, k, rfl, h⟩

theorem Follows.bind (h : Follows x v y k Q)
    (hf : ∀ a w b l, Q a w b l → Follows (f a) w (g b) l R) :
    Follows (x >>= f) v (y >>= g) k R := by
  intro a w hx
  obtain ⟨⟨a', w'⟩, hx', hf'⟩ := Option.bind_eq_some_iff.mp hx
  obtain ⟨b, l, hy, hQ⟩ := h a' w' hx'
  obtain ⟨b', l', hg, hR⟩ := hf a' w' b l hQ a w hf'
  exact ⟨b', l', (Option.bind_eq_some_iff.mpr ⟨(b, l), hy, hg⟩), hR⟩

theorem Follows.fail {y : Check β'} : Follows (failure : Validate α') v y k R := by
  intro a w hx
  cases hx

theorem Follows.get {f : Validation → Validate α'} {g : Outline → Check β'}
    (h : Follows (f v) v (g k) k R) : Follows (get >>= f) v (get >>= g) k R :=
  h

-- A condition that the validation asks for.
theorem Follows.of_guard {p : Prop} [Decidable p] {f : Unit → Validate α'} {y : Check β'}
    (h : p → Follows (f ()) v y k R) : Follows (guard p >>= f) v y k R := by
  by_cases hp : p
  · rw [guard, if_pos hp, pure_bind]
    exact h hp
  · rw [guard, if_neg hp]
    intro a w hx
    cases hx

-- A condition that the check asks for.
theorem Follows.guarded {q : Prop} [Decidable q] {x : Validate α'} {g : Unit → Check β'}
    (hq : q) (h : Follows x v (g ()) k R) : Follows x v (guard q >>= g) k R := by
  rw [guard, if_pos hq, pure_bind]
  exact h

theorem Follows.of_bind_pure (h : Follows x v (y >>= Pure.pure) k Q) : Follows x v y k Q := by
  rwa [bind_pure] at h

theorem Follows.discard {Q : Unit → Validation → Unit → Outline → Prop}
    (h : Follows x v y k fun _ w _ l => Q () w () l) :
    Follows (Functor.discard x) v (Functor.discard y) k Q := by
  rw [Lowering.Direct.discard_eq_bind, Lowering.Direct.discard_eq_bind]
  exact h.bind fun _ _ _ _ hq => .pure hq

end Follows

-- A body passes the check if its code does, its regions are closed, and live code leaves the result.
theorem accepts_iff {code : List Instruction} : env.Accepts code ↔
    ∃ k, Check.code env code {} = some ((), k) ∧ k.brackets = [] ∧
      (k.isDead = false → (Check.conclude env.result k).isSome) := by
  have hend {k : Outline} (hc : Check.code env code {} = some ((), k)) : env.Accepts code ↔
      k.brackets = [] ∧ (k.isDead = false → (Check.conclude env.result k).isSome) := by
    have hbody : Check.body env code {} =
        (do
          guard (k.brackets = [])
          if !k.isDead then Check.conclude env.result : Check Unit) k :=
      bind_eq_of_eq_some hc
    rw [Environment.Accepts, hbody]
    by_cases hb : k.brackets = []
    case pos =>
      rw [Lowering.Direct.guard_bind_of_pos hb, and_iff_right hb]
      cases hd : k.isDead
      case false => exact ⟨fun h _ => h, fun h => h rfl⟩
      case true => exact iff_of_true rfl fun h => by cases h
    case neg =>
      rw [Lowering.Direct.guard_bind_of_neg hb]
      exact iff_of_false (fun h => by cases h) fun h => hb h.1
  cases hc : Check.code env code {}
  case none =>
    have hbody : Check.body env code {} = none := Option.bind_eq_none_iff.mpr (by simp [hc])
    simp [Environment.Accepts, hbody]
  case some r =>
    obtain ⟨_, k⟩ := r
    refine (hend hc).trans ⟨fun h => ⟨k, rfl, h⟩, ?_⟩
    rintro ⟨_, hk, h⟩
    cases hk
    exact h

section Operands

variable {ty : Scalar}

theorem takes_of_popIf {d : Demand} {p : Item → Prop} [DecidablePred p]
    (h : k.Awaits env (d :: ds) v counts) (hp : ∀ item, p item → d.accepts item = true)
    (hv : Validate.popIf p v = some ((), w)) : ∃ l, k.Takes d l ∧ l.Awaits env ds w counts := by
  obtain ⟨⟨o, w'⟩, hpop, hrest⟩ := Option.bind_eq_some_iff.mp hv
  have hw : w = w' ∧ ∀ item, o = some item → p item := by
    cases o
    case none =>
      cases hrest
      simp
    case some item =>
      obtain ⟨hi, rfl⟩ := guard_eq_some_iff.mp hrest
      simp [hi]
  obtain ⟨rfl, ho⟩ := hw
  exact takes_of_pop h hpop fun item hi => hp item (ho item hi)

theorem drop_follows (h : k.Awaits env (.any :: ds) v counts) :
    Follows (discard Validate.pop) v (discard Check.pop) k fun _ w _ l => l.Awaits env ds w counts := by
  intro _ w hv
  rw [Lowering.Direct.discard_eq_bind] at hv
  obtain ⟨⟨o, w'⟩, hpop, hrest⟩ := Option.bind_eq_some_iff.mp hv
  cases hrest
  obtain ⟨l, hl, hw⟩ := takes_of_pop h hpop fun _ _ => rfl
  exact ⟨(), l, Check.drop_iff.mpr hl, hw⟩

theorem popTyped_follows (h : k.Awaits env (.value ty :: ds) v counts) :
    Follows (Validate.popTyped ty) v (Check.popTyped ty) k fun _ w _ l => l.Awaits env ds w counts := by
  intro _ w hv
  obtain ⟨l, hl, hw⟩ := takes_of_popIf h (by simp [Demand.accepts]) hv
  exact ⟨(), l, Check.popTyped_iff.mpr hl, hw⟩

theorem popCondition_follows (h : k.Awaits env (.condition :: ds) v counts) :
    Follows Validate.popCondition v Check.popCondition k fun _ w _ l => l.Awaits env ds w counts := by
  intro _ w hv
  obtain ⟨l, hl, hw⟩ := takes_of_popIf h (by simp [Demand.accepts]) hv
  exact ⟨(), l, Check.popCondition_iff.mpr hl, hw⟩

theorem popArguments_follows {types : List Scalar}
    (h : k.Awaits env (types.reverse.map .value ++ ds) v counts) :
    Follows (Validate.popArguments types) v (Check.popArguments types) k
      fun _ w _ l => l.Awaits env ds w counts := by
  induction types generalizing v k ds
  case nil => exact .pure h
  case cons type types hi =>
    rw [List.reverse_cons, List.map_append, List.append_assoc] at h
    exact (hi h).bind fun _ _ _ _ h => popTyped_follows h

section Push

variable (h : k.Covered env v counts)
include h

theorem push_covered (item : Item) :
    Outline.Covered env { k with stack := item :: k.stack } { v with stack := item :: v.stack } counts := by
  obtain ⟨items, left, extra, below, below', counts', c, outer, rfl, hi⟩ := h.exists_innermost
  have hc : Outline.Covered env { k with stack := item :: items ++ left ++ below }
      { v with stack := item :: items ++ extra ++ below' } (left.length :: counts') :=
    hi.covered fun hd => ⟨(hi.live hd).1, (hi.live hd).2.1⟩
  rw [hi.stack, hi.stack']
  exact hc

theorem push_follows :
    Follows (Validate.push ty) v (Check.push (.value ty)) k fun _ w _ l => l.Covered env w counts := by
  rintro _ _ ⟨⟩
  exact ⟨(), _, rfl, push_covered h _⟩

theorem pushComparison_follows :
    Follows Validate.pushComparison v (Check.push .comparison) k
      fun _ w _ l => l.Covered env w counts := by
  rintro _ _ ⟨⟩
  exact ⟨(), _, rfl, push_covered h _⟩

end Push

end Operands

theorem localSet_follows {index : Nat}
    (h : k.Awaits env ((env.locals[index]?.map Demand.value).toList) v counts) :
    Follows (Validate.localSet env index) v (Check.localSet env index) k
      fun ty w ty' l => ty' = ty ∧ l.Covered env w counts := by
  simp only [Validate.localSet, Check.localSet]
  cases hl : env.locals[index]?
  case none => exact .fail
  case some ty =>
    rw [hl] at h
    exact (popTyped_follows h).bind fun _ _ _ _ h => .pure ⟨rfl, h.covered⟩

theorem call_follows {index : Nat} (h : k.Awaits env (env.demands (.call index)) v counts)
    (ha : ∀ callee, env.callees[index]? = some callee → admits callee = true) :
    Follows (Validate.step env (.call index)) v (Check.call env index) k
      fun _ w _ l => l.Covered env w counts := by
  simp only [Validate.step, Check.call]
  cases hc : env.callees[index]?
  case none => exact .fail
  case some callee =>
    rw [Environment.demands, hc, ← List.append_nil (List.map _ _)] at h
    refine .guarded (ha callee hc) ?_
    refine (popArguments_follows h).bind fun _ _ _ _ h => ?_
    have hresults : callee.results.length ≤ 1 := by
      have hadmits := ha callee hc
      simp only [admits, Bool.and_eq_true, decide_eq_true_eq] at hadmits
      exact hadmits.2
    rcases hr : callee.results with _ | ⟨type, _ | _⟩
    · exact .pure h.covered
    · exact .of_bind_pure ((push_follows h.covered).bind fun _ _ _ _ h => .pure h)
    · simp [hr] at hresults

-- The instructions that neither open nor leave nor close a region.
theorem step_inside_follows {i : Instruction} (h : k.Awaits env (env.demands i) v counts)
    (ha : ∀ index, i = .call index → ∀ callee, env.callees[index]? = some callee → admits callee = true)
    (hi : match i with
      | .block _ | .loop _ | .if_ _ | .else_ | .end_ | .br _ | .brIf _ | .return_ => False
      | _ => True) :
    Follows (Validate.step env i) v (Check.step env i) k fun _ w _ l => l.Covered env w counts := by
  cases i
  case binary =>
    refine .of_guard fun hg => .guarded hg ?_
    refine (popTyped_follows h).bind fun _ _ _ _ h => ?_
    exact (popTyped_follows h).bind fun _ _ _ _ h => push_follows h.covered
  case compare =>
    refine .of_guard fun hg => .guarded hg ?_
    refine (popTyped_follows h).bind fun _ _ _ _ h => ?_
    exact (popTyped_follows h).bind fun _ _ _ _ h => pushComparison_follows h.covered
  case eqz => exact (popTyped_follows h).bind fun _ _ _ _ h => pushComparison_follows h.covered
  case neg | floor =>
    refine .of_guard fun hg => .guarded hg ?_
    exact (popTyped_follows h).bind fun _ _ _ _ h => push_follows h.covered
  case const => exact push_follows h.covered
  case localGet index =>
    simp only [Validate.step, Check.step]
    cases env.locals[index]?
    case none => exact .fail
    case some => exact push_follows h.covered
  case localSet => exact .discard ((localSet_follows h).mono fun _ _ _ _ h => h.2)
  case localTee =>
    refine (localSet_follows h).bind ?_
    rintro ty _ _ _ ⟨rfl, h⟩
    exact push_follows h
  case globalGet index =>
    simp only [Validate.step, Check.step]
    cases env.globals[index]?
    case none => exact .fail
    case some => exact push_follows h.covered
  case globalSet index =>
    simp only [Validate.step, Check.step]
    cases hg : env.globals[index]?
    case none => exact .fail
    case some =>
      rw [Environment.demands, hg] at h
      refine .of_guard fun hm => .guarded hm ?_
      exact (popTyped_follows h).mono fun _ _ _ _ h => h.covered
  case load => exact (popTyped_follows h).bind fun _ _ _ _ h => push_follows h.covered
  case store =>
    refine (popTyped_follows h).bind fun _ _ _ _ h => ?_
    exact (popTyped_follows h).mono fun _ _ _ _ h => h.covered
  case call index => exact call_follows h (ha index rfl)
  case drop => exact (drop_follows h).mono fun _ _ _ _ h => h.covered
  case nop => exact .pure h.covered
  case block | loop | if_ | else_ | end_ | br | brIf | return_ => exact hi.elim
  all_goals exact .fail

end StackCompiler.Typing
