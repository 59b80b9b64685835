import StackCompiler.Proofs.Lowering.Invariant

-- The instructions that add code to the active block only: none of them breaks what holds between
-- instructions.

namespace StackCompiler.Lowering.Direct

open Ssa (BlockId Constant Function Op Scope ValueId)

variable {cx : Context} {dom : Scope} {calls : List Nat} {s t : State} {op : Op}
variable {name opcode : String} {type : Option Scalar} {ty : Scalar} {v : ValueId}

-- Adds an instruction to the active block.
def State.emit (s : State) (name : String) (type : Option Scalar) (op : Op) : State :=
  { s with function := s.function.emit s.block name type op }

theorem append_eq_ok (hw : s.function.WellFormed) (ho : s.function.Open s.block) :
    append name type op s = .ok s.function.freshValue (s.emit name type op) :=
  edit_eq_of_ok (Function.append_eq_ok hw ho)

theorem State.advances_emit (hv : s.Valid cx dom calls) (hp : op.isPhi = false) :
    s.Advances (s.emit name type op) where
  block := rfl
  regions := rfl
  isDead := rfl
  isEnded := rfl
  function := .emit hv.draft hv.isOpen hp
  below _ _ := rfl

theorem State.usable_emit (hv : s.Valid cx dom calls) :
    (s.emit name (some ty) op).function.Usable dom s.block s.function.freshValue ty :=
  ⟨_, Function.emit_value?_freshValue, rfl, fun x hx => by
    cases hx
    exact hv.scope.self hv.isOpen.created⟩

-- An operation that neither leaves the block nor calls nor merges.
structure Plain (op : Op) : Prop where
  terminator : op.isTerminator = false
  phi : op.isPhi = false
  call : op.isCall = false

-- What a computation inside a block leaves behind.
structure Inside (cx : Context) (dom : Scope) (calls : List Nat) (s t : State) : Prop where
  valid : t.Valid cx dom calls
  advances : s.Advances t

theorem Inside.trans {u : State} {calls' : List Nat} (h₁ : Inside cx dom calls s t)
    (h₂ : Inside cx dom calls' t u) : Inside cx dom calls' s u :=
  ⟨h₂.valid, h₁.advances.trans h₂.advances⟩

theorem Inside.journal (j : Journal) (h : Inside cx dom calls s t) :
    Inside cx dom calls s { t with journal := j } :=
  ⟨h.valid.congr rfl rfl rfl rfl rfl, { h.advances with }⟩

theorem State.Valid.emit_plain (hv : s.Valid cx dom calls) (hp : Plain op)
    (hf : s.function.Fits dom s.block type op) : (s.emit name type op).Valid cx dom calls :=
  hv.emit (hv.draft.emit hv.isOpen hp.terminator hp.phi) hp.terminator hf
    (fun r hr _ hk => hv.draft.noPhi_emit hv.isOpen hp.phi (hv.regions r hr |>.header hk).2.1)
    (hv.calls_emit hp.call)

theorem append_meets (hv : s.Valid cx dom calls) (hp : Plain op)
    (hf : s.function.Fits dom s.block type op) :
    Meets (append name type op) s fun v t => v = s.function.freshValue ∧ t = s.emit name type op ∧
      Inside cx dom calls s t := by
  rw [Meets, append_eq_ok hv.draft.wf hv.isOpen]
  exact ⟨rfl, rfl, hv.emit_plain hp hf, s.advances_emit hv hp.phi⟩

theorem define_meets (hv : s.Valid cx dom calls) (hp : Plain op)
    (hf : s.function.Fits dom s.block (some ty) op) :
    Meets (define name ty op) s fun v t => Inside cx dom calls s t ∧
      t.function.Usable dom t.block v ty :=
  (append_meets hv hp hf).mono fun _ _ ⟨hv', ht, hi⟩ => ⟨hi, hv' ▸ ht ▸ s.usable_emit hv⟩

theorem perform_meets (hv : s.Valid cx dom calls) (hp : Plain op)
    (hf : s.function.Fits dom s.block none op) :
    Meets (perform op) s fun _ t => Inside cx dom calls s t := by
  simp only [perform, meets_discard]
  exact (append_meets hv hp hf).mono fun _ _ h => h.2.2

namespace State

variable {o : Operand} {rest : List Operand}

theorem Valid.stack_cons (hv : s.Valid cx dom calls) (ho : o.Usable s.function dom s.block) :
    ({ s with stack := o :: s.stack } : State).Valid cx dom calls :=
  { hv with
    within := fun r hr => { hv.within r hr with
      height := Nat.le_succ_of_le (hv.within r hr).height }
    stack := by simpa using ⟨ho, hv.stack⟩
    below := fun r hr => by
      rw [below_cons (hv.within r hr).height]
      exact hv.below r hr }

theorem advances_cons (hv : s.Valid cx dom calls) : s.Advances { s with stack := o :: s.stack } where
  block := rfl
  regions := rfl
  isDead := rfl
  isEnded := rfl
  function := .refl _
  below _ hh := below_cons (Nat.le_trans hh hv.floor_le)

theorem Valid.stack_tail (hv : s.Valid cx dom calls) (hs : s.stack = o :: rest)
    (hf : s.floor ≤ rest.length) : ({ s with stack := rest } : State).Valid cx dom calls := by
  have hh {r} (hr : r ∈ s.regions) := Nat.le_trans (hv.height_le_floor hr) hf
  exact { hv with
    within := fun r hr => { hv.within r hr with height := hh hr }
    stack := fun o ho => hv.stack o (by simp [hs, ho])
    below := fun r hr => by
      rw [← below_cons (o := o) (hh hr), ← hs]
      exact hv.below r hr }

theorem advances_tail (hs : s.stack = o :: rest) (hf : s.floor ≤ rest.length) :
    s.Advances { s with stack := rest } where
  block := rfl
  regions := rfl
  isDead := rfl
  isEnded := rfl
  function := .refl _
  below h hh := by
    rw [← below_cons (o := o) (Nat.le_trans hh hf), ← hs]

end State

theorem deadOperand_meets (hv : s.Valid cx dom calls) :
    Meets (deadOperand ty) s fun v t => Inside cx dom calls s t ∧
      t.function.Usable dom t.block v ty :=
  define_meets hv ⟨rfl, rfl, rfl⟩ .const

theorem popOperand_meets (hv : s.Valid cx dom calls) :
    Meets (popOperand opcode) s fun o t => Inside cx dom calls s t ∧
      o.Usable t.function dom t.block := by
  simp only [popOperand, meets_bind, meets_get, meets_ite]
  refine ⟨fun _ => ⟨fun _ => ?dead, fun _ => trivial⟩, fun hf => ?live⟩
  case dead => exact (deadOperand_meets hv).mono fun _ _ h => ⟨h.1, .i32, h.2⟩
  case live =>
    split
    case h_1 => trivial
    case h_2 top rest hs =>
      rw [hs, List.length_cons, Nat.not_le] at hf
      simp only [meets_bind, meets_set, meets_pure]
      refine ⟨⟨hv.stack_tail hs ?_, s.advances_tail hs ?_⟩, hv.stack top (by simp [hs])⟩ <;> omega

-- Live code pops what is there.
theorem popOperand_live_meets (hv : s.Valid cx dom calls) (hl : s.isDead = false) :
    Meets (popOperand opcode) s fun o t => ∃ rest, s.stack = o :: rest ∧ s.floor ≤ rest.length ∧
      t = { s with stack := rest } ∧ o.Usable s.function dom s.block := by
  simp only [popOperand, meets_bind, meets_get, meets_ite]
  refine ⟨fun _ => ⟨fun hd => by simp [hl] at hd, fun _ => trivial⟩, fun hf => ?_⟩
  split
  case h_1 => trivial
  case h_2 top rest hs =>
    rw [hs, List.length_cons, Nat.not_le] at hf
    exact ⟨rest, hs, Nat.le_of_lt_succ hf, rfl, hv.stack top (by simp [hs])⟩

theorem popValue_meets (hv : s.Valid cx dom calls) :
    Meets (popValue opcode) s fun v t => Inside cx dom calls s t ∧
      ∃ ty, t.function.Usable dom t.block v ty := by
  refine (popOperand_meets hv).bind fun o t ⟨hi, ho⟩ => ?_
  cases o
  case value => exact ⟨hi, ho⟩
  case comparison => trivial

-- Asking for the type of a value changes nothing.
theorem typeOf_eq (hv : s.function.HasType v ty) : typeOf v s = .ok ty s := by
  obtain ⟨d, hd, ht⟩ := hv
  rw [typeOf, get_bind, Function.typeOf, hd]
  simp only [ht]
  rfl

theorem typeOf_meets {b : BlockId} (hu : s.function.Usable dom b v ty) {Q : Scalar → State → Prop} :
    Meets (typeOf v) s Q ↔ Q ty s := by
  simp [Meets, typeOf_eq hu.hasType]

theorem expectType_meets {b : BlockId} {c : TypeContext} {expected : Scalar}
    (hu : s.function.Usable dom b v ty) :
    Meets (expectType c expected v) s fun _ t => t = s ∧ ty = expected := by
  simp only [expectType, meets_bind, typeOf_meets hu, meets_ite]
  exact ⟨fun _ => trivial, fun he => ⟨rfl, by simpa using he⟩⟩

theorem popTyped_meets {c : TypeContext} (hv : s.Valid cx dom calls) :
    Meets (popTyped opcode c ty) s fun v t => Inside cx dom calls s t ∧
      t.function.Usable dom t.block v ty := by
  simp only [popTyped, meets_bind, meets_get, meets_ite]
  refine ⟨fun _ => deadOperand_meets hv, fun _ => ?_⟩
  refine (popValue_meets hv).mono fun v t h => ?_
  obtain ⟨hi, ty', hu⟩ := h
  refine (expectType_meets hu).mono fun _ _ h => ?_
  obtain ⟨ht, he⟩ := h
  subst ht he
  exact ⟨hi, hu⟩

theorem popTyped_live_meets {c : TypeContext} (hv : s.Valid cx dom calls) (hl : s.isDead = false) :
    Meets (popTyped opcode c ty) s fun v t => ∃ rest, s.stack = .value v :: rest ∧
      s.floor ≤ rest.length ∧ t = { s with stack := rest } ∧ s.function.Usable dom s.block v ty := by
  simp only [popTyped, popValue, meets_bind, meets_get, meets_ite]
  refine ⟨fun hd => by simp [hl] at hd, fun _ => ?_⟩
  refine (popOperand_live_meets hv hl).mono fun o t h => ?_
  obtain ⟨rest, hs, hf, ht, ho⟩ := h
  cases o
  case comparison => trivial
  case value v =>
    obtain ⟨ty', hu⟩ := ho
    have hu' : t.function.Usable dom t.block v ty' := ht ▸ hu
    simp only [meets_pure]
    refine (expectType_meets hu').mono fun _ u h => ?_
    obtain ⟨htu, he⟩ := h
    subst he
    exact ⟨rest, hs, hf, htu.trans ht, hu⟩

theorem peekValue_meets {b : BlockId} (hk : ∀ o ∈ s.stack, o.Usable s.function dom b) :
    Meets (peekValue opcode) s fun v t => t = s ∧ s.stack.head? = some (.value v) ∧
      ∃ ty, s.function.Usable dom b v ty := by
  simp only [peekValue, meets_bind, meets_get]
  split
  case h_1 => trivial
  case h_2 v rest hs =>
    simp only [meets_ite]
    exact ⟨fun _ => ⟨rfl, by simp [hs], hk (.value v) (by simp [hs])⟩, fun _ => trivial⟩
  case h_3 => trivial

theorem popCondition_meets (hv : s.Valid cx dom calls) :
    Meets (popCondition opcode) s fun (lhs, _, rhs) t => Inside cx dom calls s t ∧
      ∃ ty, t.function.Usable dom t.block lhs ty ∧ t.function.Usable dom t.block rhs ty := by
  simp only [popCondition, meets_bind]
  refine (popOperand_meets hv).mono fun o t h => ?_
  obtain ⟨hi, ho⟩ := h
  cases o
  case comparison => exact ⟨hi, ho⟩
  case value v =>
    obtain ⟨ty, hu⟩ := ho
    simp only [meets_bind, typeOf_meets hu, meets_ite, meets_pure]
    refine ⟨fun _ => trivial, fun _ => ?_⟩
    refine (define_meets hi.valid ⟨rfl, rfl, rfl⟩ .const).mono fun zero u h => ?_
    obtain ⟨hi', hz⟩ := h
    exact ⟨hi.trans hi', ty, hi'.advances.usable hu, hz⟩

theorem popArguments_meets (hv : s.Valid cx dom calls) (types : List Scalar) :
    Meets (popArguments opcode types) s fun args t => Inside cx dom calls s t ∧
      List.Forall₂ (t.function.Usable dom t.block) args types := by
  induction types generalizing s
  case nil => exact ⟨⟨hv, .refl s⟩, .nil⟩
  case cons ty types hi =>
    simp only [popArguments, meets_bind]
    refine (hi hv).mono fun args t h => ?_
    obtain ⟨ht, ha⟩ := h
    refine (popTyped_meets ht.valid).mono fun arg u h => ?_
    obtain ⟨hu, hg⟩ := h
    exact ⟨ht.trans hu, .cons hg (ha.imp fun _ _ => hu.advances.usable)⟩

theorem push_meets (hi : Inside cx dom calls s t) (hu : t.function.Usable dom t.block v ty) :
    Meets (push v) t fun _ u => Inside cx dom calls s u :=
  ⟨hi.valid.stack_cons ⟨ty, hu⟩, hi.advances.trans (t.advances_cons hi.valid)⟩

theorem pushComparison_meets {lhs rhs : ValueId} {cond : Comparison} (hi : Inside cx dom calls s t)
    (hl : t.function.Usable dom t.block lhs ty) (hr : t.function.Usable dom t.block rhs ty) :
    Meets (pushComparison lhs cond rhs) t fun _ u => Inside cx dom calls s u :=
  ⟨hi.valid.stack_cons ⟨ty, hl, hr⟩, hi.advances.trans (t.advances_cons hi.valid)⟩

-- A slot can be used in every block, since the entry comes before all of them.
theorem usable_slot {slot : Slot} (hv : s.Valid cx dom calls) (hs : slot ∈ cx.locals) :
    s.function.Usable dom s.block slot.address .ptr := by
  have ⟨d, hd, ht, hb⟩ := hv.slots slot hs
  exact ⟨d, hd, ht, fun x hx => hv.scope.root hv.isOpen.created (hb ▸ hx)⟩

section Instructions

variable {value : Bytecode.ValueType}

theorem binary_meets {op : BinaryOp} (hv : s.Valid cx dom calls) :
    Meets (binary opcode value op) s fun _ t => Inside cx dom calls s t := by
  simp only [binary, meets_bind, meets_ite]
  refine ⟨fun _ => trivial, fun _ => ?_⟩
  refine (popTyped_meets hv).mono fun rhs s₁ h => ?_
  obtain ⟨h₁, hr⟩ := h
  refine (popTyped_meets h₁.valid).mono fun lhs s₂ h => ?_
  obtain ⟨h₂, hl⟩ := h
  have hr := h₂.advances.usable hr
  refine (define_meets h₂.valid ⟨rfl, rfl, rfl⟩ (.binary hl hr)).mono fun v s₃ h => ?_
  obtain ⟨h₃, hu⟩ := h
  exact push_meets (h₁.trans (h₂.trans h₃)) hu

theorem compare_meets {cond : Comparison} (hv : s.Valid cx dom calls) :
    Meets (compare opcode value cond) s fun _ t => Inside cx dom calls s t := by
  simp only [compare, meets_bind, meets_ite]
  refine ⟨fun _ => trivial, fun _ => ?_⟩
  refine (popTyped_meets hv).mono fun rhs s₁ h => ?_
  obtain ⟨h₁, hr⟩ := h
  refine (popTyped_meets h₁.valid).mono fun lhs s₂ h => ?_
  obtain ⟨h₂, hl⟩ := h
  exact pushComparison_meets (h₁.trans h₂) hl (h₂.advances.usable hr)

theorem eqz_meets (hv : s.Valid cx dom calls) :
    Meets (eqz opcode value) s fun _ t => Inside cx dom calls s t := by
  simp only [eqz, meets_bind]
  refine (popTyped_meets hv).mono fun operand s₁ h => ?_
  obtain ⟨h₁, ho⟩ := h
  refine (define_meets h₁.valid ⟨rfl, rfl, rfl⟩ .const).mono fun zero s₂ h => ?_
  obtain ⟨h₂, hz⟩ := h
  exact pushComparison_meets (h₁.trans h₂) (h₂.advances.usable ho) hz

theorem neg_meets (hv : s.Valid cx dom calls) :
    Meets (neg opcode value) s fun _ t => Inside cx dom calls s t := by
  simp only [neg, meets_bind, meets_ite]
  refine ⟨fun _ => trivial, fun hf => ?_⟩
  refine (popTyped_meets hv).mono fun operand s₁ h => ?_
  obtain ⟨h₁, ho⟩ := h
  have hf : value.scalar.isFloat = true := by simpa [Bytecode.ValueType.isFloat] using hf
  refine (define_meets h₁.valid ⟨rfl, rfl, rfl⟩ (.neg hf ho)).mono fun v s₂ h => ?_
  obtain ⟨h₂, hu⟩ := h
  exact push_meets (h₁.trans h₂) hu

theorem floor_meets (hv : s.Valid cx dom calls) :
    Meets (floor opcode value) s fun _ t => Inside cx dom calls s t := by
  simp only [floor, meets_bind, meets_ite]
  refine ⟨fun _ => trivial, fun _ => ?_⟩
  refine (popTyped_meets hv).mono fun operand s₁ h => ?_
  obtain ⟨h₁, ho⟩ := h
  refine (define_meets h₁.valid ⟨rfl, rfl, rfl⟩ (.cast ho)).mono fun int s₂ h => ?_
  obtain ⟨h₂, hi⟩ := h
  refine (define_meets h₂.valid ⟨rfl, rfl, rfl⟩ (.cast hi)).mono fun v s₃ h => ?_
  obtain ⟨h₃, hu⟩ := h
  exact push_meets (h₁.trans (h₂.trans h₃)) hu

theorem localGet_meets {index : Nat} (hv : s.Valid cx dom calls) :
    Meets (localGet cx index) s fun _ t => Inside cx dom calls s t := by
  simp only [localGet, meets_bind, Context.local]
  cases hl : cx.locals[index]?
  case none => trivial
  case some slot =>
    have hs := usable_slot hv (List.mem_of_getElem? hl)
    refine (define_meets hv ⟨rfl, rfl, rfl⟩ (.load hs)).mono fun v s₁ h => ?_
    obtain ⟨h₁, hu⟩ := h
    exact push_meets h₁ hu

theorem localSet_meets {index : Nat} (hv : s.Valid cx dom calls) :
    Meets (localSet cx opcode index) s fun v t => Inside cx dom calls s t ∧
      ∃ ty, t.function.Usable dom t.block v ty := by
  simp only [localSet, meets_bind, Context.local]
  cases hl : cx.locals[index]?
  case none => trivial
  case some slot =>
    refine (popTyped_meets hv).mono fun v s₁ h => ?_
    obtain ⟨h₁, hu⟩ := h
    have hs := usable_slot h₁.valid (List.mem_of_getElem? hl)
    refine (perform_meets h₁.valid ⟨rfl, rfl, rfl⟩ (.store hu hs)).mono fun _ s₂ h₂ => ?_
    exact ⟨h₁.trans h₂, _, h₂.advances.usable hu⟩

theorem globalGet_meets {index : Nat} (hv : s.Valid cx dom calls) :
    Meets (globalGet cx index) s fun _ t => Inside cx dom calls s t := by
  simp only [globalGet, meets_bind, Context.global]
  cases cx.globals[index]?
  case none => trivial
  case some slot =>
    refine (define_meets hv ⟨rfl, rfl, rfl⟩ .globalAddr).mono fun address s₁ h => ?_
    obtain ⟨h₁, ha⟩ := h
    refine (define_meets h₁.valid ⟨rfl, rfl, rfl⟩ (.load ha)).mono fun v s₂ h => ?_
    obtain ⟨h₂, hu⟩ := h
    exact push_meets (h₁.trans h₂) hu

theorem globalSet_meets {index : Nat} (hv : s.Valid cx dom calls) :
    Meets (globalSet cx opcode index) s fun _ t => Inside cx dom calls s t := by
  simp only [globalSet, meets_bind, Context.global]
  cases cx.globals[index]?
  case none => trivial
  case some slot =>
    simp only [meets_ofExcept_ok, meets_ite, meets_bind]
    refine ⟨fun _ => trivial, fun _ => ?_⟩
    refine (popTyped_meets hv).mono fun v s₁ h => ?_
    obtain ⟨h₁, hu⟩ := h
    refine (define_meets h₁.valid ⟨rfl, rfl, rfl⟩ .globalAddr).mono fun address s₂ h => ?_
    obtain ⟨h₂, ha⟩ := h
    have hu := h₂.advances.usable hu
    refine (perform_meets h₂.valid ⟨rfl, rfl, rfl⟩ (.store hu ha)).mono fun _ s₃ h₃ => ?_
    exact h₁.trans (h₂.trans h₃)

theorem address_meets {base : ValueId} {offset : Nat} (hv : s.Valid cx dom calls)
    (hb : s.function.Usable dom s.block base .ptr) :
    Meets (address base offset) s fun v t => Inside cx dom calls s t ∧
      t.function.Usable dom t.block v .ptr := by
  simp only [address, meets_bind]
  refine (define_meets hv ⟨rfl, rfl, rfl⟩ .const).mono fun offset s₁ h => ?_
  obtain ⟨h₁, ho⟩ := h
  have hb := h₁.advances.usable hb
  refine (define_meets h₁.valid ⟨rfl, rfl, rfl⟩ (.binary hb ho)).mono fun v s₂ h => ?_
  obtain ⟨h₂, hu⟩ := h
  exact ⟨h₁.trans h₂, hu⟩

theorem load_meets {offset : Nat} (hv : s.Valid cx dom calls) :
    Meets (load opcode value offset) s fun _ t => Inside cx dom calls s t := by
  simp only [load, meets_bind]
  refine (popTyped_meets hv).mono fun base s₁ h => ?_
  obtain ⟨h₁, hb⟩ := h
  refine (address_meets h₁.valid hb).mono fun address s₂ h => ?_
  obtain ⟨h₂, ha⟩ := h
  refine (define_meets h₂.valid ⟨rfl, rfl, rfl⟩ (.load ha)).mono fun v s₃ h => ?_
  obtain ⟨h₃, hu⟩ := h
  exact push_meets (h₁.trans (h₂.trans h₃)) hu

theorem store_meets {offset : Nat} (hv : s.Valid cx dom calls) :
    Meets (store opcode value offset) s fun _ t => Inside cx dom calls s t := by
  simp only [store, meets_bind]
  refine (popTyped_meets hv).mono fun v s₁ h => ?_
  obtain ⟨h₁, hu⟩ := h
  refine (popTyped_meets h₁.valid).mono fun base s₂ h => ?_
  obtain ⟨h₂, hb⟩ := h
  refine (address_meets h₂.valid hb).mono fun address s₃ h => ?_
  obtain ⟨h₃, ha⟩ := h
  have hu := h₃.advances.usable (h₂.advances.usable hu)
  refine (perform_meets h₃.valid ⟨rfl, rfl, rfl⟩ (.store hu ha)).mono fun _ s₄ h₄ => ?_
  exact h₁.trans (h₂.trans (h₃.trans h₄))

-- A signature that the convention takes is taken without further ado.
theorem accept_meets {subject : String} {types : List Scalar} {R : Unit → State → Prop}
    (h : (∃ regs, Convention.assign types = .ok regs) → R () s) :
    Meets (Convention.accept subject types : Journaled CompileError Unit) s R := by
  simp only [Meets, liftM, monadLift, MonadLift.monadLift, zoom, Convention.accept]
  cases ha : Convention.assign types
  case ok regs => exact h ⟨regs, ha⟩
  case error => trivial

-- A call is the last one so far.
theorem State.Valid.emit_call {index : Nat} {callee : Callee} {args : List ValueId}
    (hv : s.Valid cx dom calls) (hc : cx.callees[index]? = some callee)
    (hr : callee.signature.result = .ok type)
    (ha : List.Forall₂ (s.function.Usable dom s.block) args callee.signature.paramTypes)
    (hregs : ∃ regs, Convention.assign callee.signature.paramTypes = .ok regs) :
    (s.emit "call" type (.call ⟨callee.name, args, type⟩)).Valid cx dom (calls ++ [index]) := by
  refine hv.emit (hv.draft.emit hv.isOpen rfl rfl) rfl ?fits ?header ?calls
  case fits =>
    intro arg hm
    have ⟨n, hn, he⟩ := List.mem_iff_getElem.mp hm
    have ht : s.function.Usable dom s.block args[n] _ := ha.get hn (ha.length_eq ▸ hn)
    exact ⟨_, he ▸ ht⟩
  case header =>
    exact fun r hr _ hk => hv.draft.noPhi_emit hv.isOpen rfl (hv.regions r hr |>.header hk).2.1
  case calls =>
    rw [Function.callValues_emit]
    refine List.rel_append ?_ (.cons ?_ .nil)
    · exact hv.calls.imp fun _ _ => .mono .emit fun hd _ => Function.emit_value?_of_some hd
    · refine ⟨_, callee, args, Function.emit_value?_freshValue, hc, rfl, hr, ?_, hregs⟩
      exact ha.imp fun _ _ hu => Function.Keeps.emit.hasType hu.hasType

theorem call_meets {index : Nat} (hv : s.Valid cx dom calls) :
    Meets (call cx opcode index) s fun _ t => Inside cx dom (calls ++ [index]) s t := by
  simp only [call, meets_bind, Context.callee]
  cases hc : cx.callees[index]?
  case none => trivial
  case some callee =>
    simp only [meets_ofExcept_ok]
    refine accept_meets fun hregs => ?_
    cases hr : callee.signature.result
    case error => exact benign_of_signature_result hr
    case ok result =>
      refine (popArguments_meets hv _).mono fun args s₁ h => ?_
      obtain ⟨h₁, ha⟩ := h
      have h₂ := Inside.journal (s₁.journal.record (.callLowered callee.name))
        ⟨h₁.valid.emit_call hc hr ha hregs, h₁.advances.trans (s₁.advances_emit h₁.valid rfl)⟩
      simp only [Meets, append_eq_ok h₁.valid.draft.wf h₁.valid.isOpen]
      cases result
      case none => exact h₂
      case some => exact push_meets h₂ (s₁.usable_emit h₁.valid)

end Instructions

end StackCompiler.Lowering.Direct
