import StackCompiler.Proofs.Simulation.Start
import StackCompiler.Proofs.Ssa.History

-- How code may use the addresses of locals and globals: to load and to store, with the type that was
-- declared, and for nothing else. Instructions that stay in their block keep to this.

namespace StackCompiler

namespace Ssa

namespace Op

-- The address of a stack slot or of a global.
def isAddress : Op → Bool
  | alloc _ _ | globalAddr _ => true
  | _ => false

-- What an operation reads, apart from the address of a load or a store.
def data : Op → List ValueId
  | load _ => []
  | store value _ => [value]
  | op => op.operands

theorem data_retarget? {op op' : Op} {old new : BlockId} (h : op.retarget? old new = some op') :
    op'.data = op.data ∧ op.isTerminator = true ∧ op'.isTerminator = true := by
  cases op <;> simp only [retarget?] at h
  case jump =>
    split at h <;> cases h
    exact ⟨rfl, rfl, rfl⟩
  case branch =>
    split at h
    · cases h
      exact ⟨rfl, rfl, rfl⟩
    · split at h <;> cases h
      exact ⟨rfl, rfl, rfl⟩
  all_goals cases h

end Op

namespace Function

variable {f g : Function} {b p : BlockId} {v : ValueId} {name : String} {type : Option Scalar} {op : Op}

def HasOp (f : Function) (v : ValueId) (op : Op) : Prop :=
  ∃ d, f.value? v = some d ∧ d.op = op

-- A value that is no address.
def Plain (f : Function) (v : ValueId) : Prop :=
  ∃ d, f.value? v = some d ∧ d.op.isAddress = false ∧ d.op.isTerminator = false

theorem eq_freshValue_of_append (h : append p name type op f = .ok v g) : v = f.freshValue := by
  rw [append_eq] at h
  split at h
  case isTrue => cases h
  case isFalse =>
    split at h <;> cases h
    rfl

namespace Begins

theorem refl (f : Function) : f.Begins f :=
  ⟨.refl f, fun hd _ => hd, fun _ => List.prefix_rfl⟩

theorem emit : f.Begins (f.emit p name type op) where
  keeps := .emit
  value hd _ := emit_value?_of_some hd
  insts b := by
    by_cases hc : p.index < f.blocks.size
    case pos => exact (Grows.emit hc).insts b
    case neg =>
      have hn : f.blocks[p.index]? = none := Array.getElem?_eq_none (Nat.le_of_not_lt hc)
      by_cases hb : b = p
      case pos => simp [Function.insts, block?, hb, hn]
      case neg => simp [emit_insts_of_ne hb]

theorem redirect {op₁ : Op} (ht : f.terminator? p = some op₁) : f.Begins (f.redirect p op) where
  keeps := .redirect ht
  value hd hn := redirect_value?_of_not_isTerminator ht hd hn
  insts b := by simp

theorem hasOp (h : f.Begins g) (ho : f.HasOp v op) (ht : op.isTerminator = false) :
    g.HasOp v op := by
  obtain ⟨d, hd, rfl⟩ := ho
  exact ⟨d, h.value hd ht, rfl⟩

theorem plain (h : f.Begins g) (hv : f.Plain v) : g.Plain v := by
  obtain ⟨d, hd, ha, ht⟩ := hv
  exact ⟨d, h.value hd ht, ha, ht⟩

end Begins

theorem Grows.toBegins (h : f.Grows g) : f.Begins g :=
  h.begins (.refl g)

end Function

end Ssa

namespace Lowering.Direct

open Bytecode (Instruction ValueType)
open Ssa (BlockId Function Op ValueId)

-- What `a` is the address of, for a load or a store of the given type: a local, a global, or memory
-- to which the code has a pointer.
inductive Accesses (cx : Context) (f : Function) (isStore : Bool) (a : ValueId) : Scalar → Prop
  | slot {slot : Slot} (hm : slot ∈ cx.locals) (ha : slot.address = a) :
    Accesses cx f isStore a slot.type
  | global {slot : GlobalSlot} (hm : slot ∈ cx.globals) (ha : f.HasOp a (.globalAddr slot.id))
    (hs : isStore = true → slot.isMutable = true) : Accesses cx f isStore a slot.type
  | pointer {type : Scalar} (hp : f.Plain a) : Accesses cx f isStore a type

-- What the discipline asks of an operation that yields `v`.
def Obeys (cx : Context) (f : Function) (v : ValueId) (type : Option Scalar) (op : Op) : Prop :=
  (∀ u ∈ op.data, f.Plain u) ∧
  match op with
  | .alloc _ _ => ∃ slot ∈ cx.locals, slot.address = v
  | .load a => ∃ ty, type = some ty ∧ Accesses cx f false a ty
  | .store u a => ∃ ty, f.HasType u ty ∧ Accesses cx f true a ty
  | _ => True

-- Between instructions, no address is on the stack or on its way to a phi.
structure State.Tame (cx : Context) (s : State) : Prop where
  values : ∀ {v d}, s.function.value? v = some d → Obeys cx s.function v d.type d.op
  stack : ∀ o ∈ s.stack, ∀ v ∈ o.values, s.function.Plain v
  regions : ∀ r ∈ s.regions, ∀ result ∈ r.result, ∀ i ∈ result.incoming, s.function.Plain i.2

variable {cx : Context} {f g : Function} {s t : State} {v : ValueId} {op : Op} {name opcode : String}
variable {type : Option Scalar} {ty : Scalar}

theorem Accesses.mono {isStore : Bool} {a : ValueId} (h : Accesses cx f isStore a ty)
    (hb : f.Begins g) : Accesses cx g isStore a ty := by
  cases h
  case slot hm ha => exact .slot hm ha
  case global hm ha hs => exact .global hm (hb.hasOp ha rfl) hs
  case pointer hp => exact .pointer (hb.plain hp)

theorem Obeys.mono (h : Obeys cx f v type op) (hb : f.Begins g) : Obeys cx g v type op := by
  refine ⟨fun u hu => hb.plain (h.1 u hu), ?_⟩
  have hop := h.2
  cases op
  case load =>
    obtain ⟨ty, ht, ha⟩ := hop
    exact ⟨ty, ht, ha.mono hb⟩
  case store =>
    obtain ⟨ty, ht, ha⟩ := hop
    exact ⟨ty, hb.keeps.hasType ht, ha.mono hb⟩
  all_goals exact hop

theorem Obeys.load {a : ValueId} (ha : Accesses cx f false a ty) : Obeys cx f v (some ty) (.load a) :=
  ⟨by simp [Op.data], ty, rfl, ha⟩

theorem Obeys.store {a u : ValueId} (hu : f.Plain u) (ht : f.HasType u ty)
    (ha : Accesses cx f true a ty) : Obeys cx f v type (.store u a) :=
  ⟨List.forall_mem_singleton.mpr hu, ty, ht, ha⟩

-- A terminator may lead elsewhere.
theorem Obeys.retarget? {op' : Op} {old new : BlockId} (h : Obeys cx f v type op)
    (ho : op.retarget? old new = some op') : Obeys cx f v type op' := by
  obtain ⟨hd, _, ht⟩ := Op.data_retarget? ho
  refine ⟨hd ▸ h.1, ?_⟩
  cases op'
  case alloc | load | store => cases ht
  all_goals trivial

namespace State.Tame

variable (h : s.Tame cx)
include h

theorem of_begins (hb : s.function.Begins t.function) (hs : t.stack = s.stack)
    (hr : t.regions = s.regions)
    (hv : ∀ {v d}, t.function.value? v = some d → Obeys cx t.function v d.type d.op) :
    t.Tame cx where
  values := hv
  stack o ho v hv := hb.plain (h.stack o (hs ▸ ho) v hv)
  regions r hm result hres i hi := hb.plain (h.regions r (hr ▸ hm) result hres i hi)

theorem emit (ho : Obeys cx s.function s.function.freshValue type op) :
    (s.emit name type op).Tame cx := by
  have hb : s.function.Begins (s.emit name type op).function := .emit
  refine h.of_begins hb rfl rfl fun {v d} hd => ?_
  rw [State.emit, Function.emit_value?] at hd
  split at hd
  case isTrue hv =>
    cases hd
    subst hv
    exact ho.mono hb
  case isFalse => exact (h.values hd).mono hb

theorem grow : s.grow.Tame cx :=
  have hb := Function.Grows.addBlock.toBegins
  h.of_begins hb rfl rfl fun hd => (h.values hd).mono hb

theorem retarget {b old new : BlockId} (hg : Function.retarget b old new s.function = .ok () g) :
    ({ s with function := g } : State).Tame cx ∧ s.function.Begins g := by
  obtain ⟨op₁, op₂, ht, ho, rfl⟩ := Function.exists_of_retarget hg
  have hb : s.function.Begins (s.function.redirect b op₂) := .redirect ht
  refine ⟨h.of_begins hb rfl rfl fun {v d} hd => ?_, hb⟩
  obtain ⟨op, hd', hor⟩ := Function.exists_of_redirect_value? ht hd
  have hv := (h.values hd').mono hb
  rcases hor with rfl | ⟨rfl, hop⟩
  · exact hv
  · rw [hop]
    exact hv.retarget? ho

theorem pop {rest : List Operand} (hs : ∀ o ∈ rest, o ∈ s.stack) :
    ({ s with stack := rest } : State).Tame cx :=
  ⟨h.values, fun o ho => h.stack o (hs o ho), h.regions⟩

theorem push (hv : s.function.Plain v) :
    ({ s with stack := .value v :: s.stack } : State).Tame cx :=
  ⟨h.values, List.forall_mem_cons.mpr ⟨List.forall_mem_singleton.mpr hv, h.stack⟩, h.regions⟩

end State.Tame

-- Whenever the computation ends well, it has kept to the discipline, and `P` holds.
def Tames (cx : Context) (x : Lower α) (s : State) (P : α → State → Prop) : Prop :=
  ∀ a t, x s = .ok a t → t.Tame cx ∧ s.function.Begins t.function ∧ P a t

namespace Tames

variable {α β : Type} {x y : Lower α} {k : α → Lower β} {a : α} {P : α → State → Prop}
variable {Q : β → State → Prop}

theorem mono {P' : α → State → Prop} (h : Tames cx x s P) (hp : ∀ a t, P a t → P' a t) :
    Tames cx x s P' := by
  intro a t hx
  obtain ⟨ht, hb, ha⟩ := h a t hx
  exact ⟨ht, hb, hp a t ha⟩

theorem throw {e : CompileError} : Tames cx (throw e : Lower α) s P := by
  intro _ _ h
  cases h

theorem throw_bind {e : CompileError} : Tames cx (MonadExcept.throw e >>= k) s Q := by
  intro _ _ h
  cases h

theorem ite {c : Prop} [Decidable c] (hx : c → Tames cx x s P) (hy : ¬c → Tames cx y s P) :
    Tames cx (if c then x else y) s P := by
  split
  case isTrue h => exact hx h
  case isFalse h => exact hy h

theorem pure (h : s.Tame cx) (hp : P a s) : Tames cx (pure a) s P := by
  intro _ _ hx
  cases hx
  exact ⟨h, .refl _, hp⟩

theorem ofExcept {e : Except CompileError α} (h : s.Tame cx) :
    Tames cx (ofExcept e) s fun a _ => e = .ok a := by
  cases e
  case ok a => exact .pure h rfl
  case error => exact .throw

theorem get_bind {k : State → Lower β} (h : Tames cx (k s) s Q) : Tames cx (get >>= k) s Q :=
  h

theorem bind (hx : Tames cx x s P)
    (hk : ∀ a t, t.Tame cx → s.function.Begins t.function → P a t → Tames cx (k a) t Q) :
    Tames cx (x >>= k) s Q := by
  intro b u h
  simp only [Bind.bind, EStateM.bind] at h
  cases hs : x s <;> rw [hs] at h
  case error => cases h
  case ok a t =>
    obtain ⟨ht, hb, hp⟩ := hx a t hs
    obtain ⟨hu, hb', hq⟩ := hk a t ht hb hp b u h
    exact ⟨hu, hb.trans hb', hq⟩

theorem map {h : α → β} (hx : Tames cx x s fun a t => Q (h a) t) : Tames cx (h <$> x) s Q := by
  rw [map_eq_pure_bind]
  exact hx.bind fun _ _ ht _ hq => .pure ht hq

theorem discard {P : Unit → State → Prop} (hx : Tames cx x s fun _ t => P () t) :
    Tames cx (Functor.discard x) s P :=
  hx.map (h := Function.const α ())

-- Where only operands, regions or the log change.
theorem modify {h : State → State} {P : Unit → State → Prop} (ht : (h s).Tame cx)
    (hf : (h s).function = s.function) (hp : P () (h s)) : Tames cx (modify h) s P := by
  intro _ _ hx
  cases hx
  exact ⟨ht, hf ▸ .refl _, hp⟩

theorem set_bind {k : Unit → Lower β} (hf : t.function = s.function)
    (hk : Tames cx (k ()) t Q) : Tames cx (set t >>= k) s Q := by
  intro b u hx
  obtain ⟨hu, hb, hq⟩ := hk b u hx
  exact ⟨hu, hf ▸ hb, hq⟩

-- A change of the function that fails leaves nothing to be said.
theorem edit {change : Function.Edit α}
    (hk : ∀ a g, change s.function = .ok a g →
      ({ s with function := g } : State).Tame cx ∧ s.function.Begins g ∧ P a { s with function := g }) :
    Tames cx (edit change) s P := by
  intro a t hx
  simp only [Direct.edit, zoom] at hx
  cases hc : change s.function <;> rw [hc] at hx <;> cases hx
  exact hk _ _ hc

end Tames

section Operands

variable (h : s.Tame cx)
include h

theorem note_tames {e : Event} : Tames cx (note e) s fun _ t => t.function = s.function :=
  .modify ⟨h.values, h.stack, h.regions⟩ rfl rfl

theorem push_tames (hv : s.function.Plain v) : Tames cx (push v) s fun _ _ => True :=
  .modify (h.push hv) rfl trivial

theorem pushComparison_tames {lhs rhs : ValueId} {cond : Comparison} (hl : s.function.Plain lhs)
    (hr : s.function.Plain rhs) : Tames cx (pushComparison lhs cond rhs) s fun _ _ => True := by
  refine .modify ⟨h.values, List.forall_mem_cons.mpr ⟨?_, h.stack⟩, h.regions⟩ rfl trivial
  exact List.forall_mem_cons.mpr ⟨hl, List.forall_mem_singleton.mpr hr⟩

theorem append_tames (ho : Obeys cx s.function s.function.freshValue type op) :
    Tames cx (append name type op) s fun v t =>
      t.function.value? v = some ⟨name, type, op, some s.block⟩ := by
  refine .get_bind (.edit fun v g he => ?_)
  obtain rfl := Function.eq_freshValue_of_append he
  obtain ⟨-, -, rfl⟩ := Function.exists_of_append he
  exact ⟨h.emit ho, .emit, Function.emit_value?_freshValue⟩

theorem define_tames (ha : op.isAddress = false) (ht : op.isTerminator = false)
    (ho : Obeys cx s.function s.function.freshValue (some ty) op) :
    Tames cx (define name ty op) s fun v t => t.function.Plain v ∧ t.function.HasType v ty :=
  (append_tames h ho).mono fun _ _ hd => ⟨⟨_, hd, ha, ht⟩, ⟨_, hd, rfl⟩⟩

theorem perform_tames (ho : Obeys cx s.function s.function.freshValue none op) :
    Tames cx (perform op) s fun _ _ => True :=
  (append_tames h ho).mono (fun _ _ _ => trivial) |>.discard

theorem const_tames {value : Ssa.Constant} : Tames cx (define name ty (.const value)) s fun v t =>
    t.function.Plain v ∧ t.function.HasType v ty :=
  define_tames h rfl rfl ⟨by simp [Op.data, Op.operands], trivial⟩

theorem typeOf_tames : Tames cx (typeOf v) s fun ty t => t = s ∧ s.function.HasType v ty := by
  intro ty t hx
  rw [typeOf, get_bind, Function.typeOf] at hx
  cases hd : s.function.value? v <;> rw [hd] at hx
  case none => cases hx
  case some d =>
    cases ht : d.type <;> simp only [ht] at hx <;> cases hx
    exact ⟨h, .refl _, rfl, d, hd, ht⟩

theorem expectType_tames {context : TypeContext} :
    Tames cx (expectType context ty v) s fun _ t => t = s ∧ s.function.HasType v ty := by
  refine (typeOf_tames h).bind ?_
  rintro found _ ht _ ⟨rfl, hf⟩
  refine .ite (fun _ => .throw) fun he => .pure h ⟨rfl, ?_⟩
  rwa [not_not.mp he] at hf

theorem popOperand_tames :
    Tames cx (popOperand opcode) s fun o t => ∀ v ∈ o.values, t.function.Plain v := by
  refine .get_bind (.ite (fun _ => ?_) fun _ => ?_)
  · refine .ite (fun _ => ?_) fun _ => .throw
    refine (const_tames h).bind fun v t ht _ hv => .pure ht ?_
    exact List.forall_mem_singleton.mpr hv.1
  · split
    case h_1 => exact .throw
    case h_2 top rest hs =>
      have hm : ∀ o ∈ rest, o ∈ s.stack := fun o ho => hs ▸ List.mem_cons_of_mem _ ho
      exact .set_bind rfl (.pure (h.pop hm) (h.stack top (by simp [hs])))

theorem popValue_tames : Tames cx (popValue opcode) s fun v t => t.function.Plain v := by
  refine (popOperand_tames h).bind fun o t ht _ ho => ?_
  cases o
  case value v => exact .pure ht (ho v (by simp [Operand.values]))
  case comparison => exact .throw

theorem popTyped_tames {context : TypeContext} : Tames cx (popTyped opcode context ty) s fun v t =>
    t.function.Plain v ∧ t.function.HasType v ty := by
  refine .get_bind (.ite (fun _ => const_tames h) fun _ => ?_)
  refine (popValue_tames h).bind fun v t ht _ hv => (expectType_tames ht).bind ?_
  rintro _ _ hu _ ⟨rfl, hty⟩
  exact .pure hu ⟨hv, hty⟩

theorem peekValue_tames : Tames cx (peekValue opcode) s fun v t => t = s ∧ s.function.Plain v := by
  refine .get_bind ?_
  split
  case h_1 | h_3 => exact .throw
  case h_2 v _ hs =>
    refine .ite (fun _ => .pure h ⟨rfl, ?_⟩) fun _ => .throw
    exact h.stack (.value v) (by simp [hs]) v (by simp [Operand.values])

theorem popCondition_tames : Tames cx (popCondition opcode) s fun (lhs, _, rhs) t =>
    t.function.Plain lhs ∧ t.function.Plain rhs := by
  refine (popOperand_tames h).bind fun o t ht _ ho => ?_
  cases o
  case comparison lhs cond rhs =>
    exact .pure ht ⟨ho lhs (by simp [Operand.values]), ho rhs (by simp [Operand.values])⟩
  case value v =>
    refine (typeOf_tames ht).bind ?_
    rintro ty _ _ _ ⟨rfl, -⟩
    refine .ite (fun _ => .throw_bind) fun _ => (const_tames ht).bind fun zero u hu hb hz => ?_
    exact .pure hu ⟨hb.plain (ho v (by simp [Operand.values])), hz.1⟩

theorem popArguments_tames {types : List Scalar} :
    Tames cx (popArguments opcode types) s fun args t => ∀ v ∈ args, t.function.Plain v := by
  induction types
  case nil => exact .pure h (by simp)
  case cons type types ih =>
    refine ih.bind fun args t ht _ ha => (popTyped_tames ht).bind fun v u hu hb hv => ?_
    exact .pure hu (List.forall_mem_cons.mpr ⟨hv.1, fun w hw => hb.plain (ha w hw)⟩)

end Operands

theorem mem_of_local {index : Nat} {slot : Slot} (h : cx.local index = .ok slot) :
    slot ∈ cx.locals := by
  rw [Context.local] at h
  split at h <;> cases h
  exact List.mem_of_getElem? ‹_›

theorem mem_of_global {index : Nat} {slot : GlobalSlot} (h : cx.global index = .ok slot) :
    slot ∈ cx.globals := by
  rw [Context.global] at h
  split at h <;> cases h
  exact List.mem_of_getElem? ‹_›

section Data

variable (h : s.Tame cx) {index offset : Nat}
include h

theorem define_push_tames (ha : op.isAddress = false) (ht : op.isTerminator = false)
    (ho : Obeys cx s.function s.function.freshValue (some ty) op) :
    Tames cx (do push (← define name ty op)) s fun _ _ => True :=
  (define_tames h ha ht ho).bind fun _ _ ht _ hv => push_tames ht hv.1

theorem globalAddr_tames {id : Ssa.GlobalId} : Tames cx (define name ty (.globalAddr id)) s fun v t =>
    t.function.HasOp v (.globalAddr id) :=
  (append_tames h ⟨by simp [Op.data, Op.operands], trivial⟩).mono fun _ _ hd => ⟨_, hd, rfl⟩

theorem localSet_tames :
    Tames cx (localSet cx opcode index) s fun v t => t.function.Plain v := by
  refine .bind (.ofExcept h) fun slot s₁ h₁ _ hslot => ?_
  have hm := mem_of_local hslot
  refine (popTyped_tames h₁).bind fun v s₂ h₂ _ hv => ?_
  refine (perform_tames h₂ (.store hv.1 hv.2 (.slot hm rfl))).bind fun _ s₃ h₃ hb _ => ?_
  exact .pure h₃ (hb.plain hv.1)

-- A pointer that the code computes.
theorem address_tames (hv : s.function.Plain v) :
    Tames cx (address v offset) s fun a t => t.function.Plain a := by
  refine (const_tames h).bind fun offset t ht hb ho => ?_
  refine (define_tames ht rfl rfl ⟨?_, trivial⟩).mono fun _ _ ha => ha.1
  exact List.forall_mem_cons.mpr ⟨hb.plain hv, List.forall_mem_singleton.mpr ho.1⟩

theorem accept_tames {subject : String} {types : List Scalar} :
    Tames cx (Convention.accept subject types : Journaled CompileError Unit) s fun _ _ => True := by
  intro _ _ hx
  simp only [liftM, monadLift, MonadLift.monadLift, zoom] at hx
  split at hx <;> cases hx
  exact ⟨⟨h.values, h.stack, h.regions⟩, .refl _, trivial⟩

theorem call_tames : Tames cx (call cx opcode index) s fun _ _ => True := by
  refine .bind (.ofExcept h) fun callee s₁ h₁ _ _ => ?_
  refine (accept_tames h₁).bind fun _ s₂ h₂ _ _ => ?_
  refine .bind (.ofExcept h₂) fun result s₃ h₃ _ _ => ?_
  refine (popArguments_tames h₃).bind fun args s₄ h₄ _ ha => ?_
  have ho : Obeys cx s₄.function s₄.function.freshValue result (.call ⟨callee.name, args, result⟩) :=
    ⟨ha, trivial⟩
  refine (append_tames h₄ ho).bind fun v s₅ h₅ _ hv => (note_tames h₅).bind fun _ s₆ h₆ _ hf => ?_
  exact .ite (fun _ => push_tames h₆ ⟨_, hf ▸ hv, rfl, rfl⟩) fun _ => .pure h₆ trivial

-- The instructions that neither open nor leave nor close a region.
theorem step_inside_tames {i : Instruction}
    (hi : match i with
      | .block _ | .loop _ | .if_ _ | .else_ | .end_ | .br _ | .brIf _ | .return_ => False
      | _ => True) : Tames cx (step cx i) s fun _ _ => True := by
  cases i
  case binary =>
    refine .ite (fun _ => .throw_bind) fun _ => (popTyped_tames h).bind fun rhs s₁ h₁ _ hr => ?_
    refine (popTyped_tames h₁).bind fun lhs s₂ h₂ hb hl => ?_
    refine define_push_tames h₂ rfl rfl ⟨?_, trivial⟩
    exact List.forall_mem_cons.mpr ⟨hl.1, List.forall_mem_singleton.mpr (hb.plain hr.1)⟩
  case compare =>
    refine .ite (fun _ => .throw_bind) fun _ => (popTyped_tames h).bind fun rhs s₁ h₁ _ hr => ?_
    refine (popTyped_tames h₁).bind fun lhs s₂ h₂ hb hl => ?_
    exact pushComparison_tames h₂ hl.1 (hb.plain hr.1)
  case eqz =>
    refine (popTyped_tames h).bind fun v s₁ h₁ _ hv => (const_tames h₁).bind fun zero s₂ h₂ hb hz => ?_
    exact pushComparison_tames h₂ (hb.plain hv.1) hz.1
  case neg =>
    refine .ite (fun _ => .throw_bind) fun _ => (popTyped_tames h).bind fun v s₁ h₁ _ hv => ?_
    exact define_push_tames h₁ rfl rfl ⟨List.forall_mem_singleton.mpr hv.1, trivial⟩
  case floor =>
    refine .ite (fun _ => .throw_bind) fun _ => (popTyped_tames h).bind fun v s₁ h₁ _ hv => ?_
    have ho : Obeys cx s₁.function s₁.function.freshValue (some .i64) (.cast v) :=
      ⟨List.forall_mem_singleton.mpr hv.1, trivial⟩
    refine (define_tames h₁ rfl rfl ho).bind fun w s₂ h₂ _ hw => ?_
    exact define_push_tames h₂ rfl rfl ⟨List.forall_mem_singleton.mpr hw.1, trivial⟩
  case const => exact (const_tames h).bind fun _ _ h₁ _ hv => push_tames h₁ hv.1
  case localGet index =>
    refine .bind (.ofExcept h) fun slot s₁ h₁ _ hslot => ?_
    have hm := mem_of_local hslot
    exact define_push_tames h₁ rfl rfl (.load (.slot hm rfl))
  case localSet => exact (localSet_tames h).mono (fun _ _ _ => trivial) |>.discard
  case localTee => exact (localSet_tames h).bind fun _ _ h₁ _ hv => push_tames h₁ hv
  case globalGet index =>
    refine .bind (.ofExcept h) fun slot s₁ h₁ _ hslot => ?_
    have hm := mem_of_global hslot
    refine (globalAddr_tames h₁).bind fun a s₂ h₂ _ ha => ?_
    exact define_push_tames h₂ rfl rfl (.load (.global hm ha (by simp)))
  case globalSet index =>
    refine .bind (.ofExcept h) fun slot s₁ h₁ _ hslot => ?_
    have hm := mem_of_global hslot
    refine .ite (fun _ => .throw_bind) fun hmutable => (popTyped_tames h₁).bind fun v s₂ h₂ _ hv => ?_
    refine (globalAddr_tames h₂).bind fun a s₃ h₃ hb ha => ?_
    refine perform_tames h₃ (.store (hb.plain hv.1) (hb.keeps.hasType hv.2) ?_)
    exact .global hm ha fun _ => by simpa using hmutable
  case load =>
    refine (popTyped_tames h).bind fun v s₁ h₁ _ hv => (address_tames h₁ hv.1).bind fun a s₂ h₂ _ ha => ?_
    exact define_push_tames h₂ rfl rfl (.load (.pointer ha))
  case store =>
    refine (popTyped_tames h).bind fun v s₁ h₁ _ hv => (popTyped_tames h₁).bind fun base s₂ h₂ hb₂ hp => ?_
    refine (address_tames h₂ hp.1).bind fun a s₃ h₃ hb₃ ha => ?_
    have hb := hb₂.trans hb₃
    exact perform_tames h₃ (.store (hb.plain hv.1) (hb.keeps.hasType hv.2) (.pointer ha))
  case call => exact call_tames h
  case drop => exact (popOperand_tames h).mono (fun _ _ _ => trivial) |>.discard
  case nop => exact .pure h trivial
  case block | loop | if_ | else_ | end_ | br | brIf | return_ => exact hi.elim
  all_goals exact .throw

end Data

end Lowering.Direct

end StackCompiler
