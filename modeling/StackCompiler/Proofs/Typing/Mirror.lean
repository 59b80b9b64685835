import Mathlib.Data.Option.Basic
import StackCompiler.Proofs.Convention.Capacity
import StackCompiler.Proofs.Lowering.Live
import StackCompiler.Proofs.Typing.Outline

-- The lowering of an instruction succeeds exactly when the check of its types does, and the outline
-- stays that of the state.

namespace StackCompiler

open Ssa (BlockId Function Op Scope ValueId)
open Typing (Check Environment Item Bracket Outline Shape)

namespace Lowering

-- The type of a value, or that there is a comparison.
inductive Operand.Typed (f : Function) : Operand → Item → Prop
  | value {v : ValueId} {ty : Scalar} (h : f.HasType v ty) : Typed f (.value v) (.value ty)
  | comparison {lhs rhs : ValueId} {cond : Comparison} :
    Typed f (.comparison lhs cond rhs) .comparison

def RegionKind.shape : RegionKind → Shape
  | .block => .block
  | .loop _ => .loop
  | .if_ _ => .if_
  | .else_ => .else_

theorem Operand.Typed.mono {f g : Function} {o : Operand} {item : Item} (hk : f.Keeps g)
    (h : o.Typed f item) : o.Typed g item := by
  cases h
  case value h => exact .value (hk.hasType h)
  case comparison => exact .comparison

end Lowering

namespace Lowering.Direct

-- A lowering computation and a check succeed together, with what `Q` says of the two, or fail
-- together.
def Mirrors (x : Lower α) (s : State) (y : Check β) (k : Outline)
    (Q : α → State → β → Outline → Prop) : Prop :=
  match x s, y k with
  | .ok a t, some (b, l) => Q a t b l
  | .error _ _, none => True
  | _, _ => False

section Mirrors

variable {x : Lower α} {s t : State} {y : Check β} {k l : Outline} {a : α} {b : β}
variable {Q Q' : α → State → β → Outline → Prop}
variable {α' β' : Type} {f : α → Lower α'} {g : β → Check β'} {R : α' → State → β' → Outline → Prop}

theorem Mirrors.mono (h : Mirrors x s y k Q) (hq : ∀ a t b l, Q a t b l → Q' a t b l) :
    Mirrors x s y k Q' := by
  unfold Mirrors at h ⊢
  cases hx : x s <;> cases hy : y k <;> simp only [hx, hy] at h ⊢
  exact hq _ _ _ _ h

theorem Mirrors.bind (h : Mirrors x s y k Q)
    (hf : ∀ a t b l, Q a t b l → Mirrors (f a) t (g b) l R) : Mirrors (x >>= f) s (y >>= g) k R := by
  unfold Mirrors at h
  have hy : (y >>= g) k = (y k).bind fun p => g p.1 p.2 := rfl
  cases hx : x s <;> cases hk : y k <;> simp only [hx, hk] at h
  case ok.some a t p =>
    have he : (x >>= f) s = f a t := by simp only [Bind.bind, EStateM.bind, hx]
    have hp := hf a t p.1 p.2 h
    rw [Mirrors, he, hy, hk]
    exact hp
  case error.none e t =>
    have he : (x >>= f) s = .error e t := by simp only [Bind.bind, EStateM.bind, hx]
    rw [Mirrors, he, hy, hk]
    trivial

theorem Mirrors.of_ok (h : Mirrors x s y k Q) (hx : x s = .ok a t) :
    ∃ b l, y k = some (b, l) ∧ Q a t b l := by
  unfold Mirrors at h
  rw [hx] at h
  cases hy : y k <;> rw [hy] at h
  case none => exact h.elim
  case some r => exact ⟨r.1, r.2, rfl, h⟩

theorem Mirrors.pure (h : Q a s b k) : Mirrors (pure a) s (pure b) k Q :=
  h

theorem mirrors_of_error {e : CompileError} (hx : x s = .error e t) :
    Mirrors x s (failure : Check β) k Q := by
  simp [Mirrors, hx, failure, StateT.failure]

theorem mirrors_bind_of_error {α' : Type} {f : α → Lower α'} {e : CompileError}
    {Q : α' → State → β → Outline → Prop} (hx : x s = .error e t) :
    Mirrors (x >>= f) s (failure : Check β) k Q := by
  have he : (x >>= f) s = .error e t := by simp only [Bind.bind, EStateM.bind, hx]
  exact mirrors_of_error he

-- Steps of the lowering alone.
theorem Mirrors.left {α' : Type} {f : α → Lower α'} {Q : α' → State → β → Outline → Prop}
    (hx : x s = .ok a t) (h : Mirrors (f a) t y k Q) : Mirrors (x >>= f) s y k Q := by
  have he : (x >>= f) s = f a t := by simp only [Bind.bind, EStateM.bind, hx]
  rwa [Mirrors, he]

theorem Mirrors.get {f : State → Lower α} {g : Outline → Check β} (h : Mirrors (f s) s (g k) k Q) :
    Mirrors (get >>= f) s (get >>= g) k Q :=
  h

theorem Mirrors.set {f : Unit → Lower α} {g : Unit → Check β} (h : Mirrors (f ()) t (g ()) l Q) :
    Mirrors (set t >>= f) s (set l >>= g) k Q :=
  h

theorem Mirrors.ite {c d : Prop} [Decidable c] [Decidable d] {x' : Lower α} {y' : Check β}
    (hc : c ↔ d) (hp : c → Mirrors x s y k Q) (hn : ¬c → Mirrors x' s y' k Q) :
    Mirrors (if c then x else x') s (if d then y else y') k Q := by
  by_cases h : c
  · rw [if_pos h, if_pos (hc.mp h)]
    exact hp h
  · rw [if_neg h, if_neg (mt hc.mpr h)]
    exact hn h

theorem Mirrors.fail {e : CompileError} : Mirrors (throw e) s failure k Q :=
  trivial

theorem guard_bind_of_pos {p : Prop} [Decidable p] {g : Unit → Check β} (h : p) :
    (guard p >>= g) = g () := by
  rw [guard, if_pos h, pure_bind]

theorem guard_bind_of_neg {p : Prop} [Decidable p] {g : Unit → Check β} (h : ¬p) :
    (guard p >>= g) = failure := by
  rw [guard, if_neg h]
  rfl

-- A condition that the lowering refuses to go on without.
theorem Mirrors.unless {c p : Prop} [Decidable c] [Decidable p] {e : CompileError}
    {f : PUnit → Lower α} {g : Unit → Check β} (hc : c ↔ ¬p)
    (h : p → Mirrors (f ⟨⟩) s (g ()) k Q) :
    Mirrors (if c then throw e >>= f else f ⟨⟩) s (guard p >>= g) k Q := by
  by_cases hp : p
  · rw [if_neg (mt hc.mp (not_not.mpr hp)), guard_bind_of_pos hp]
    exact h hp
  · rw [if_pos (hc.mpr hp), guard_bind_of_neg hp]
    exact .fail

theorem Mirrors.of_bind_pure (h : Mirrors x s (y >>= Pure.pure) k Q) : Mirrors x s y k Q := by
  rwa [bind_pure] at h

theorem discard_eq_bind {m : Type → Type} [Monad m] [LawfulMonad m] (x : m α) :
    discard x = x >>= fun _ => Pure.pure () := by
  rw [discard, map_const]
  exact (bind_pure_comp ..).symm

theorem Mirrors.discard {Q : Unit → State → Unit → Outline → Prop}
    (h : Mirrors x s y k fun _ t _ l => Q () t () l) :
    Mirrors (Functor.discard x) s (Functor.discard y) k Q := by
  rw [discard_eq_bind, discard_eq_bind]
  exact h.bind fun _ _ _ _ hq => .pure hq

end Mirrors

-- Whether something leads behind the region, apart from the condition of an `if`.
def Region.IsLeft (f : Function) (r : Region) : Prop :=
  match r.kind with
  | .if_ breaks => breaks ≠ []
  | _ => ∃ p, r.continuation ∈ f.successors p

structure Region.Outlined (f : Function) (r : Region) (l : Bracket) : Prop where
  shape : l.shape = r.kind.shape
  result : l.result = r.result.map Result.type
  height : l.height = r.height
  isLive : l.isLive = r.isLive
  isLeft : l.isLeft = true ↔ r.IsLeft f

-- The outline `k` is that of the state `s`, and code can be added to the active block.
structure State.Outlined (s : State) (k : Outline) : Prop where
  ready : s.Ready
  stack : List.Forall₂ (Operand.Typed s.function) s.stack k.stack
  brackets : List.Forall₂ (Region.Outlined s.function) s.regions k.brackets
  isDead : k.isDead = s.isDead
  isEnded : k.isEnded = s.isEnded

variable {f g : Function} {s t : State} {k l : Outline} {o : Operand} {item : Item} {op : Op}
variable {name opcode : String} {type : Option Scalar} {ty : Scalar} {v : ValueId}

theorem Outline.floor_eq (h : List.Forall₂ (Region.Outlined f) s.regions k.brackets) :
    k.floor = s.floor := by
  unfold Outline.floor State.floor
  cases hr : s.regions <;> cases hk : k.brackets <;> rw [hr, hk] at h <;> cases h
  exact (‹Region.Outlined ..›).height

namespace State.Outlined

variable (h : s.Outlined k)
include h

theorem length_eq : k.stack.length = s.stack.length :=
  h.stack.length_eq.symm

theorem floor_eq : k.floor = s.floor :=
  Outline.floor_eq h.brackets

theorem cons (ho : o.Typed s.function item) :
    ({ s with stack := o :: s.stack } : State).Outlined { k with stack := item :: k.stack } :=
  { h with ready := ⟨h.ready.wf, h.ready.isOpen⟩, stack := .cons ho h.stack }

theorem journal (j : Journal) : ({ s with journal := j } : State).Outlined k :=
  { h with ready := ⟨h.ready.wf, h.ready.isOpen⟩ }

-- Code that stays in the active block.
theorem emit (ht : op.isTerminator = false) : (s.emit name type op).Outlined k := by
  have hs (p : BlockId) : (s.emit name type op).function.successors p = s.function.successors p := by
    exact h.ready.wf.emit_successors_of_not_isTerminator h.ready.isOpen ht
  refine ⟨h.ready.emit ht, h.stack.imp fun _ _ => .mono .emit, ?_, h.isDead, h.isEnded⟩
  refine h.brackets.imp fun r l hr => { hr with isLeft := hr.isLeft.trans ?_ }
  unfold Region.IsLeft
  split
  case h_1 => exact .rfl
  case h_2 => simp only [hs]

end State.Outlined

theorem define_eq_ok (h : s.Ready) :
    define name ty op s = .ok s.function.freshValue (s.emit name (some ty) op) :=
  append_eq_ok h.wf h.isOpen

theorem perform_eq_ok (h : s.Ready) : perform op s = .ok () (s.emit "" none op) := by
  have ha : append "" none op s = _ := append_eq_ok h.wf h.isOpen
  simp only [perform, discard, Functor.discard, Functor.mapConst, EStateM.map, ha, Function.comp]

theorem State.hasType_emit : (s.emit name (some ty) op).function.HasType s.function.freshValue ty :=
  ⟨_, Function.emit_value?_freshValue, rfl⟩

theorem deadOperand_eq_ok (h : s.Ready) :
    deadOperand ty s = .ok s.function.freshValue (s.emit "undef" (some ty) (.const (.zero ty))) :=
  define_eq_ok h

-- Both find a placeholder, an operand, or nothing.
theorem popOperand_mirrors (h : s.Outlined k) :
    Mirrors (popOperand opcode) s Check.pop k fun o t item l =>
      t.Outlined l ∧ o.Typed t.function item := by
  refine .get (.ite ?floor (fun _ => .ite ?isDead (fun _ => ?dead) fun _ => .fail) fun hf => ?top)
  case floor => rw [h.length_eq, h.floor_eq]
  case isDead => rw [h.isDead]
  case dead =>
    exact .left (deadOperand_eq_ok h.ready) ⟨h.emit rfl, .value State.hasType_emit⟩
  case top =>
    have hstack := h.stack
    split
    case h_1 hs =>
      rw [hs, List.forall₂_nil_left_iff] at hstack
      rw [hstack]
      exact .fail
    case h_2 top rest hs =>
      rw [hs] at hstack
      obtain ⟨item, items, ho, hrest, hk⟩ := List.forall₂_cons_left_iff.mp hstack
      rw [hk]
      exact .set (.pure ⟨{ h with ready := ⟨h.ready.wf, h.ready.isOpen⟩, stack := hrest }, ho⟩)

theorem popValue_mirrors (h : s.Outlined k) :
    Mirrors (popValue opcode) s Check.popValue k fun v t ty l =>
      t.Outlined l ∧ t.function.HasType v ty := by
  refine (popOperand_mirrors h).bind fun o t item l ho => ?_
  obtain ⟨ht, ho⟩ := ho
  cases ho
  case value hv => exact .pure ⟨ht, hv⟩
  case comparison => exact .fail

theorem expectType_eq {c : TypeContext} {found : Scalar} (hv : s.function.HasType v found) :
    expectType c ty v s =
      if found = ty then .ok () s else .error (.typeMismatch c ty found) s := by
  simp only [expectType, bind, EStateM.bind, typeOf_eq hv]
  by_cases h : found = ty
  · rw [if_neg (not_not.mpr h), if_pos h]
    rfl
  · rw [if_pos h, if_neg h]
    rfl

-- A check of the type changes nothing.
theorem Mirrors.expectType {α β : Type} {f : Unit → Lower α} {g : Unit → Check β}
    {Q : α → State → β → Outline → Prop} {c : TypeContext} {found : Scalar}
    (hv : s.function.HasType v found) (h : found = ty → Mirrors (f ()) s (g ()) k Q) :
    Mirrors (Direct.expectType c ty v >>= f) s (guard (found = ty) >>= g) k Q := by
  by_cases he : found = ty
  · rw [guard_bind_of_pos he]
    exact .left ((expectType_eq hv).trans (if_pos he)) (h he)
  · rw [guard_bind_of_neg he]
    exact mirrors_bind_of_error ((expectType_eq hv).trans (if_neg he))

theorem popTyped_mirrors {c : TypeContext} (h : s.Outlined k) :
    Mirrors (popTyped opcode c ty) s (Check.popTyped ty) k fun v t _ l =>
      t.Outlined l ∧ t.function.HasType v ty := by
  refine .get (.ite ?floor (fun _ => ?dead) fun _ => ?top)
  case floor => rw [h.length_eq, h.floor_eq, h.isDead]
  case dead =>
    have hx : deadOperand ty s = _ := deadOperand_eq_ok h.ready
    rw [Mirrors, hx]
    exact ⟨h.emit rfl, State.hasType_emit⟩
  case top =>
    refine (popValue_mirrors h).bind fun v t found l hv => ?_
    obtain ⟨ht, hv⟩ := hv
    refine .of_bind_pure (.expectType hv fun hf => ?_)
    exact .pure ⟨ht, hf ▸ hv⟩

theorem peekValue_mirrors (h : s.Outlined k) :
    Mirrors (peekValue opcode) s Check.peek k fun v t ty l =>
      t = s ∧ l = k ∧ s.stack.head? = some (.value v) ∧ s.function.HasType v ty := by
  have hstack := h.stack
  refine .get ?_
  split
  case h_1 hs =>
    rw [hs] at hstack
    obtain ⟨item, items, ho, _, hk⟩ := List.forall₂_cons_left_iff.mp hstack
    cases ho
    simp only [hk]
    exact .fail
  case h_2 v rest hs =>
    rw [hs] at hstack
    obtain ⟨item, items, ho, _, hk⟩ := List.forall₂_cons_left_iff.mp hstack
    cases ho
    case value hv =>
      have hlen := h.length_eq
      rw [hk] at hlen
      simp only [hk]
      refine .ite ?_ (fun _ => .pure ⟨rfl, rfl, by rw [hs, List.head?_cons], hv⟩) fun _ => .fail
      rw [hlen, h.floor_eq]
  case h_3 hs =>
    rw [hs, List.forall₂_nil_left_iff] at hstack
    simp only [hstack]
    exact .fail

theorem popCondition_mirrors (h : s.Outlined k) :
    Mirrors (popCondition opcode) s Check.popCondition k fun _ t _ l => t.Outlined l := by
  refine (popOperand_mirrors h).bind fun o t item l ho => ?_
  obtain ⟨ht, ho⟩ := ho
  cases ho
  case comparison => exact .pure ht
  case value v ty hv =>
    refine .left (typeOf_eq hv) ?_
    refine .of_bind_pure (.unless not_or.symm fun _ => ?_)
    exact .left (define_eq_ok ht.ready) (.pure (ht.emit rfl))

theorem popArguments_mirrors (h : s.Outlined k) (types : List Scalar) :
    Mirrors (popArguments opcode types) s (Check.popArguments types) k fun _ t _ l => t.Outlined l := by
  induction types generalizing s k
  case nil => exact .pure h
  case cons ty types ih =>
    refine (ih h).bind fun args t _ l ht => ?_
    refine .of_bind_pure ((popTyped_mirrors ht).bind fun arg u _ m hu => ?_)
    exact .pure hu.left

-- The types of what a context has.
def Context.environment (cx : Context) : Environment where
  locals := cx.locals.map Slot.type
  globals := cx.globals.map fun g => (g.type, g.isMutable)
  callees := cx.callees.map Callee.signature
  result := cx.result

section Instructions

variable {cx : Context} {value : Bytecode.ValueType} {index : Nat}

theorem push_mirrors (h : s.Outlined k) (hv : s.function.HasType v ty) :
    Mirrors (push v) s (Check.push (.value ty)) k fun _ t _ l => t.Outlined l :=
  h.cons (.value hv)

theorem pushComparison_mirrors {lhs rhs : ValueId} {cond : Comparison} (h : s.Outlined k) :
    Mirrors (pushComparison lhs cond rhs) s (Check.push .comparison) k fun _ t _ l => t.Outlined l :=
  h.cons .comparison

-- The value of an operation goes on the stack.
theorem define_push_mirrors (h : s.Outlined k) (ht : op.isTerminator = false) :
    Mirrors (do push (← define name ty op)) s (Check.push (.value ty)) k fun _ t _ l =>
      t.Outlined l :=
  .left (define_eq_ok h.ready) (push_mirrors (h.emit ht) State.hasType_emit)

theorem binary_mirrors {op : BinaryOp} (h : s.Outlined k) :
    Mirrors (binary opcode value op) s (Check.step cx.environment (.binary value op)) k
      fun _ t _ l => t.Outlined l := by
  simp only [binary, Check.step]
  refine .unless ?allowed fun _ => ?_
  case allowed => simp
  refine (popTyped_mirrors h).bind fun rhs s₁ _ k₁ h₁ => ?_
  refine (popTyped_mirrors h₁.left).bind fun lhs s₂ _ k₂ h₂ => ?_
  exact define_push_mirrors h₂.left rfl

theorem compare_mirrors {cond : Comparison} (h : s.Outlined k) :
    Mirrors (compare opcode value cond) s (Check.step cx.environment (.compare value cond)) k
      fun _ t _ l => t.Outlined l := by
  simp only [compare, Check.step]
  refine .unless ?allowed fun _ => ?_
  case allowed => simp
  refine (popTyped_mirrors h).bind fun rhs s₁ _ k₁ h₁ => ?_
  refine (popTyped_mirrors h₁.left).bind fun lhs s₂ _ k₂ h₂ => ?_
  exact pushComparison_mirrors h₂.left

theorem eqz_mirrors (h : s.Outlined k) :
    Mirrors (eqz opcode value) s (Check.step cx.environment (.eqz value)) k
      fun _ t _ l => t.Outlined l := by
  refine (popTyped_mirrors h).bind fun operand s₁ _ k₁ h₁ => ?_
  exact .left (define_eq_ok h₁.left.ready) (pushComparison_mirrors (h₁.left.emit rfl))

theorem neg_mirrors (h : s.Outlined k) :
    Mirrors (neg opcode value) s (Check.step cx.environment (.neg value)) k
      fun _ t _ l => t.Outlined l := by
  simp only [neg, Check.step]
  refine .unless ?allowed fun _ => ?_
  case allowed => simp
  refine (popTyped_mirrors h).bind fun operand s₁ _ k₁ h₁ => ?_
  exact define_push_mirrors h₁.left rfl

theorem floor_mirrors (h : s.Outlined k) :
    Mirrors (floor opcode value) s (Check.step cx.environment (.floor value)) k
      fun _ t _ l => t.Outlined l := by
  simp only [floor, Check.step]
  refine .unless ?allowed fun _ => ?_
  case allowed => simp
  refine (popTyped_mirrors h).bind fun operand s₁ _ k₁ h₁ => ?_
  exact .left (define_eq_ok h₁.left.ready) (define_push_mirrors (h₁.left.emit rfl) rfl)

theorem localGet_mirrors (h : s.Outlined k) :
    Mirrors (localGet cx index) s (Check.step cx.environment (.localGet index)) k
      fun _ t _ l => t.Outlined l := by
  simp only [localGet, Context.local, Check.step, Context.environment, List.getElem?_map]
  cases cx.locals[index]?
  case none => exact .fail
  case some slot => exact define_push_mirrors h rfl

theorem localSet_mirrors (h : s.Outlined k) :
    Mirrors (localSet cx opcode index) s (Check.localSet cx.environment index) k
      fun v t ty l => t.Outlined l ∧ t.function.HasType v ty := by
  simp only [localSet, Context.local, Check.localSet, Context.environment, List.getElem?_map]
  cases cx.locals[index]?
  case none => exact .fail
  case some slot =>
    refine (popTyped_mirrors h).bind fun v s₁ _ k₁ h₁ => ?_
    obtain ⟨h₁, hv⟩ := h₁
    exact .left (perform_eq_ok h₁.ready) (.pure ⟨h₁.emit rfl, Function.Keeps.emit.hasType hv⟩)

theorem globalGet_mirrors (h : s.Outlined k) :
    Mirrors (globalGet cx index) s (Check.step cx.environment (.globalGet index)) k
      fun _ t _ l => t.Outlined l := by
  simp only [globalGet, Context.global, Check.step, Context.environment, List.getElem?_map]
  cases cx.globals[index]?
  case none => exact .fail
  case some slot =>
    refine .left rfl ?_
    exact .left (define_eq_ok h.ready) (define_push_mirrors (h.emit rfl) rfl)

theorem globalSet_mirrors (h : s.Outlined k) :
    Mirrors (globalSet cx opcode index) s (Check.step cx.environment (.globalSet index)) k
      fun _ t _ l => t.Outlined l := by
  simp only [globalSet, Context.global, Check.step, Context.environment, List.getElem?_map]
  cases cx.globals[index]?
  case none => exact .fail
  case some slot =>
    refine .left rfl (.unless ?isMutable fun _ => .of_bind_pure ?_)
    case isMutable => simp
    refine (popTyped_mirrors h).bind fun v s₁ _ k₁ h₁ => ?_
    obtain ⟨h₁, _⟩ := h₁
    refine .left (define_eq_ok h₁.ready) ?_
    rw [Mirrors, perform_eq_ok (h₁.emit rfl).ready]
    exact (h₁.emit rfl).emit rfl

theorem address_eq_ok {base : ValueId} {offset : Nat} (h : s.Ready) :
    address base offset s =
      .ok (s.offset offset).function.freshValue (s.address base offset) := by
  have ho : define "offset" .ptr (.const (.int (BitVec.ofNat 64 offset))) s = _ := define_eq_ok h
  simp only [address, bind, EStateM.bind, ho]
  exact define_eq_ok (h.emit rfl)

theorem State.Outlined.address {base : ValueId} {offset : Nat} (h : s.Outlined k) :
    (s.address base offset).Outlined k :=
  (h.emit rfl).emit rfl

theorem load_mirrors {offset align : Nat} (h : s.Outlined k) :
    Mirrors (load opcode value offset) s (Check.step cx.environment (.load value offset align)) k
      fun _ t _ l => t.Outlined l := by
  refine (popTyped_mirrors h).bind fun base s₁ _ k₁ h₁ => ?_
  exact .left (address_eq_ok h₁.left.ready) (define_push_mirrors h₁.left.address rfl)

theorem store_mirrors {offset align : Nat} (h : s.Outlined k) :
    Mirrors (store opcode value offset) s (Check.step cx.environment (.store value offset align)) k
      fun _ t _ l => t.Outlined l := by
  refine (popTyped_mirrors h).bind fun v s₁ _ k₁ h₁ => .of_bind_pure ?_
  refine (popTyped_mirrors h₁.left).bind fun base s₂ _ k₂ h₂ => ?_
  refine .left (address_eq_ok h₂.left.ready) ?_
  rw [Mirrors, perform_eq_ok h₂.left.address.ready]
  exact h₂.left.address.emit rfl

-- The arguments fit the registers, and there is one register for a result.
theorem admits_iff {sig : Bytecode.Signature} : Typing.admits sig = true ↔
    (∃ regs, Convention.assign sig.paramTypes = .ok regs) ∧
      sig.result = .ok (sig.results.head?.map Bytecode.ValueType.scalar) := by
  have hresult : sig.results.length ≤ 1 ↔
      sig.result = .ok (sig.results.head?.map Bytecode.ValueType.scalar) := by
    unfold Bytecode.Signature.result
    rcases hr : sig.results with _ | ⟨type, _ | ⟨other, rest⟩⟩ <;> simp
  have hcount (p : Scalar → Bool) :
      sig.paramTypes.countP p = sig.params.countP fun type => p type.scalar := by
    rw [Bytecode.Signature.paramTypes, List.countP_map]
    rfl
  rw [Convention.assign_isOk_iff, ← hresult, hcount, hcount]
  simp only [Typing.admits, Bool.and_eq_true, decide_eq_true_eq]
  rfl

theorem eq_of_result {sig : Bytecode.Signature} {result : Option Scalar} (h : sig.result = .ok result) :
    result = sig.results.head?.map Bytecode.ValueType.scalar := by
  unfold Bytecode.Signature.result at h
  split at h <;> simp_all

theorem rejected_of_not_admits {sig : Bytecode.Signature} (h : ¬Typing.admits sig = true) :
    (¬∃ regs, Convention.assign sig.paramTypes = .ok regs) ∨ ∃ e, sig.result = .error e := by
  rw [admits_iff, not_and_or] at h
  refine h.imp_right fun h => ?_
  cases hr : sig.result
  case error e => exact ⟨e, rfl⟩
  case ok result =>
    exact absurd (by rw [hr, eq_of_result hr]) h

theorem accept_eq_ok {subject : String} {types : List Scalar} {regs : List Register}
    (h : Convention.assign types = .ok regs) :
    (liftM (Convention.accept subject types) : Lower Unit) s = .ok () s := by
  simp [Convention.accept, h, liftM, monadLift, MonadLift.monadLift, zoom]
  rfl

theorem accept_eq_error {subject : String} {types : List Scalar}
    (h : ¬∃ regs, Convention.assign types = .ok regs) :
    ∃ e t, (liftM (Convention.accept subject types) : Lower Unit) s = .error e t := by
  cases ha : Convention.assign types
  case ok regs => exact absurd ⟨regs, ha⟩ h
  case error =>
    simp only [Convention.accept, ha, liftM, monadLift, MonadLift.monadLift, zoom]
    exact ⟨_, _, rfl⟩

theorem call_mirrors (h : s.Outlined k) :
    Mirrors (call cx opcode index) s (Check.call cx.environment index) k
      fun _ t _ l => t.Outlined l := by
  simp only [call, Context.callee, Check.call, Context.environment, List.getElem?_map]
  cases cx.callees[index]?
  case none => exact .fail
  case some callee =>
    refine .left rfl ?_
    simp only [Option.map_some]
    by_cases ha : Typing.admits callee.signature
    case neg =>
      rw [guard_bind_of_neg ha]
      by_cases hassign : ∃ regs, Convention.assign callee.signature.paramTypes = .ok regs
      case neg =>
        obtain ⟨e, t, he⟩ := accept_eq_error (s := s) hassign
        exact mirrors_bind_of_error he
      case pos =>
        obtain ⟨e, he⟩ := (rejected_of_not_admits ha).resolve_left (not_not.mpr hassign)
        obtain ⟨regs, hregs⟩ := hassign
        rw [he]
        exact .left (accept_eq_ok hregs) (mirrors_bind_of_error rfl)
    case pos =>
      obtain ⟨⟨regs, hassign⟩, hresult⟩ := admits_iff.mp ha
      rw [guard_bind_of_pos ha, hresult]
      refine .left (accept_eq_ok hassign) (.left rfl ?_)
      refine (popArguments_mirrors h _).bind fun args t _ l ht => ?_
      refine .left (append_eq_ok ht.ready.wf ht.ready.isOpen) (.left rfl ?_)
      cases callee.signature.results.head?
      case none => exact .pure ((ht.emit rfl).journal _)
      case some => exact push_mirrors ((ht.emit rfl).journal _) State.hasType_emit

-- The instructions that neither open nor leave nor close a region.
theorem step_inside_mirrors {i : Bytecode.Instruction} (h : s.Outlined k)
    (hi : match i with
      | .block _ | .loop _ | .if_ _ | .else_ | .end_ | .br _ | .brIf _ | .return_ => False
      | _ => True) :
    Mirrors (step cx i) s (Check.step cx.environment i) k fun _ t _ l => t.Outlined l := by
  cases i
  case binary => exact binary_mirrors h
  case compare => exact compare_mirrors h
  case eqz => exact eqz_mirrors h
  case neg => exact neg_mirrors h
  case floor => exact floor_mirrors h
  case const => exact define_push_mirrors h rfl
  case localGet => exact localGet_mirrors h
  case localSet => exact .discard ((localSet_mirrors h).mono fun _ _ _ _ hv => hv.left)
  case localTee =>
    refine (localSet_mirrors h).bind fun v t ty l hv => ?_
    exact push_mirrors hv.left hv.right
  case globalGet => exact globalGet_mirrors h
  case globalSet => exact globalSet_mirrors h
  case load => exact load_mirrors h
  case store => exact store_mirrors h
  case call => exact call_mirrors h
  case drop => exact .discard ((popOperand_mirrors h).mono fun _ _ _ _ ho => ho.left)
  case nop => exact .pure h
  case block | loop | if_ | else_ | end_ | br | brIf | return_ => exact hi.elim
  all_goals exact .fail

end Instructions

end Lowering.Direct

end StackCompiler
