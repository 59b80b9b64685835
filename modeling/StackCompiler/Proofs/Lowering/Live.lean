import StackCompiler.Proofs.Lowering.Close

-- What instructions that compute do in live code: the operands they take and the code they add.

namespace StackCompiler.Lowering.Direct

open Bytecode (Instruction Literal ValueType)
open Ssa (BlockId Function Op Scope ValueId)

variable {cx : Context} {dom : Scope} {calls : List Nat} {s t : State} {op : Op}
variable {opcode name : String} {ty : Scalar} {type : ValueType}

namespace State

-- The operands without the top ones.
def pop (s : State) (rest : List Operand) : State :=
  { s with stack := rest }

-- The address `base + offset` is the value that follows the offset.
def offset (s : State) (offset : Nat) : State :=
  s.emit "offset" (some .ptr) (.const (.int (BitVec.ofNat 64 offset)))

def address (s : State) (base : ValueId) (offset : Nat) : State :=
  (s.offset offset).emit "address" (some .ptr) (.binary .add base s.function.freshValue)

section Pop

variable (s : State) (rest : List Operand)

@[simp]
theorem pop_function : (s.pop rest).function = s.function :=
  rfl

@[simp]
theorem pop_block : (s.pop rest).block = s.block :=
  rfl

@[simp]
theorem offset_pop_function (n : Nat) : ((s.pop rest).offset n).function = (s.offset n).function :=
  rfl

end Pop

-- What becomes of a state in which an instruction is lowered that stays in its block.
inductive Computes (cx : Context) (s : State) : Instruction → State → Prop
  | binary {type : ValueType} {op : BinaryOp} {lhs rhs : ValueId} {rest : List Operand}
    (hs : s.stack = .value rhs :: .value lhs :: rest) :
    Computes cx s (.binary type op)
      ((s.pop rest).yield (op.mnemonic type.isFloat) type.scalar (.binary op lhs rhs))
  | compare {type : ValueType} {op : Comparison} {lhs rhs : ValueId} {rest : List Operand}
    (hs : s.stack = .value rhs :: .value lhs :: rest) (ht : s.function.HasType lhs type.scalar) :
    Computes cx s (.compare type op) (s.pop (.comparison lhs op rhs :: rest))
  | eqz {type : ValueType} {v : ValueId} {rest : List Operand} (hs : s.stack = .value v :: rest)
    (ht : s.function.HasType v type.scalar) :
    Computes cx s (.eqz type)
      ((s.emit "zero" (some type.scalar) (.const (.zero type.scalar))).pop
        (.comparison v .eq s.function.freshValue :: rest))
  | neg {type : ValueType} {v : ValueId} {rest : List Operand} (hs : s.stack = .value v :: rest) :
    Computes cx s (.neg type) ((s.pop rest).yield "neg" type.scalar (.neg v))
  | floor {type : ValueType} {v : ValueId} {rest : List Operand} (hs : s.stack = .value v :: rest)
    (ht : s.function.HasType v type.scalar) :
    Computes cx s (.floor type)
      (((s.pop rest).emit "floor_cast_1" (some .i64) (.cast v)).yield "floor_cast_2" type.scalar
        (.cast s.function.freshValue))
  | const {value : Literal} :
    Computes cx s (.const value) (s.yield "const" value.type.scalar (.const value.constant))
  | localGet {index : Nat} {slot : Slot} (hl : cx.locals[index]? = some slot) :
    Computes cx s (.localGet index) (s.yield "getlocal" slot.type (.load slot.address))
  | localSet {index : Nat} {slot : Slot} {v : ValueId} {rest : List Operand}
    (hl : cx.locals[index]? = some slot) (hs : s.stack = .value v :: rest)
    (ht : s.function.HasType v slot.type) :
    Computes cx s (.localSet index) ((s.pop rest).emit "" none (.store v slot.address))
  | localTee {index : Nat} {slot : Slot} {v : ValueId} {rest : List Operand}
    (hl : cx.locals[index]? = some slot) (hs : s.stack = .value v :: rest)
    (ht : s.function.HasType v slot.type) :
    Computes cx s (.localTee index)
      (((s.pop rest).emit "" none (.store v slot.address)).pop (.value v :: rest))
  | globalGet {index : Nat} {slot : GlobalSlot} (hg : cx.globals[index]? = some slot) :
    Computes cx s (.globalGet index)
      ((s.emit "global_addr" (some .ptr) (.globalAddr slot.id)).yield "get_global" slot.type
        (.load s.function.freshValue))
  | globalSet {index : Nat} {slot : GlobalSlot} {v : ValueId} {rest : List Operand}
    (hg : cx.globals[index]? = some slot) (hs : s.stack = .value v :: rest)
    (ht : s.function.HasType v slot.type) :
    Computes cx s (.globalSet index)
      (((s.pop rest).emit "global_addr" (some .ptr) (.globalAddr slot.id)).emit "" none
        (.store v s.function.freshValue))
  | load {type : ValueType} {offset align : Nat} {v : ValueId} {rest : List Operand}
    (hs : s.stack = .value v :: rest) :
    Computes cx s (.load type offset align)
      (((s.pop rest).address v offset).yield "load" type.scalar
        (.load (s.offset offset).function.freshValue))
  | store {type : ValueType} {offset align : Nat} {v base : ValueId} {rest : List Operand}
    (hs : s.stack = .value v :: .value base :: rest) (ht : s.function.HasType v type.scalar) :
    Computes cx s (.store type offset align)
      (((s.pop rest).address base offset).emit "" none
        (.store v (s.offset offset).function.freshValue))
  | call {index : Nat} {callee : Callee} {result : Option Scalar} {args : List ValueId}
    {rest : List Operand} {j : Journal} (hc : cx.callees[index]? = some callee)
    (hr : callee.signature.result = .ok result)
    (hs : s.stack = (args.reverse.map Operand.value) ++ rest)
    (hl : args.length = callee.signature.params.length) :
    Computes cx s (.call index)
      { (s.emit "call" result (.call ⟨callee.name, args, result⟩)).pop
          ((result.map fun _ => Operand.value s.function.freshValue).toList ++ rest) with
        journal := j }
  | drop {o : Operand} {rest : List Operand} (hs : s.stack = o :: rest) :
    Computes cx s .drop (s.pop rest)
  | nop : Computes cx s .nop s

-- The operands that a branch compares. An integer is compared with zero.
inductive Decides (s : State) : ValueId → Comparison → ValueId → State → Prop
  | comparison {lhs rhs : ValueId} {cond : Comparison} {rest : List Operand}
    (hs : s.stack = .comparison lhs cond rhs :: rest) : Decides s lhs cond rhs (s.pop rest)
  | value {v : ValueId} {ty : Scalar} {rest : List Operand} (hs : s.stack = .value v :: rest)
    (ht : s.function.HasType v ty) :
    Decides s v .ne s.function.freshValue
      ((s.pop rest).emit "zero" (some ty) (.const (.zero ty)))

end State

section Live

variable (hv : s.Valid cx dom calls) (hl : s.isDead = false)
include hv hl

-- One value after the other is popped off a live stack.
theorem popTyped_pop_meets {c : TypeContext} :
    Meets (popTyped opcode c ty) s fun v t => ∃ rest, s.stack = .value v :: rest ∧ t = s.pop rest ∧
      t.Valid cx dom calls ∧ s.function.HasType v ty :=
  (popTyped_live_meets hv hl).mono fun _ _ ⟨rest, hs, hf, ht, hu⟩ =>
    ⟨rest, hs, ht, ht ▸ hv.stack_tail hs hf, hu.hasType⟩

theorem popTyped_twice_meets {c c' : TypeContext} {ty' : Scalar} :
    Meets (popTyped opcode c ty) s fun a t => Meets (popTyped opcode c' ty') t fun b u => ∃ rest,
      s.stack = .value a :: .value b :: rest ∧ u = s.pop rest ∧ u.Valid cx dom calls ∧
      s.function.HasType a ty ∧ s.function.HasType b ty' := by
  refine (popTyped_pop_meets hv hl).mono fun a t ⟨rest₁, hs₁, h₁, hv₁, ha⟩ => ?_
  refine (popTyped_pop_meets hv₁ (h₁ ▸ hl)).mono fun b u ⟨rest, hs, hu, hv, hb⟩ => ?_
  subst h₁ hu
  have hs : rest₁ = .value b :: rest := hs
  exact ⟨rest, hs ▸ hs₁, rfl, hv, ha, hb⟩

theorem popArguments_live_meets (types : List Scalar) :
    Meets (popArguments opcode types) s fun args t => ∃ rest,
      s.stack = args.reverse.map Operand.value ++ rest ∧ t = s.pop rest ∧ t.Valid cx dom calls ∧
      args.length = types.length := by
  induction types
  case nil => exact ⟨s.stack, rfl, rfl, hv, rfl⟩
  case cons ty types hi =>
    simp only [popArguments, meets_bind]
    refine hi.mono fun args t h => ?_
    obtain ⟨rest, hs, ht, hvt, hlen⟩ := h
    have hl : t.isDead = false := ht ▸ hl
    refine (popTyped_pop_meets hvt hl).mono fun v u h => ?_
    obtain ⟨rest', hs', hu, hvu, _⟩ := h
    subst ht hu
    have hs' : rest = .value v :: rest' := hs'
    exact ⟨rest', by simp [hs, hs'], rfl, hvu, by simp [hlen]⟩

end Live

-- Code can be added to the active block.
structure State.Ready (s : State) : Prop where
  wf : s.function.WellFormed
  isOpen : s.function.Open s.block

theorem State.Valid.ready (hv : s.Valid cx dom calls) : s.Ready :=
  ⟨hv.draft.wf, hv.isOpen⟩

theorem State.Ready.emit {type : Option Scalar} (h : s.Ready) (ht : op.isTerminator = false) :
    (s.emit name type op).Ready :=
  ⟨h.wf.emit h.isOpen, (h.wf.emit_open_iff h.isOpen).mpr ⟨h.isOpen, fun _ => ht⟩⟩

theorem State.Ready.grow (h : s.Ready) : s.grow.Ready :=
  ⟨State.wellFormed_grow h.wf, State.open_grow h.isOpen⟩

theorem State.Ready.define {Q : ValueId → State → Prop} (h : s.Ready)
    (hq : Q s.function.freshValue (s.emit name (some ty) op)) : Meets (define name ty op) s Q :=
  (meets_define h.wf h.isOpen).mpr hq

theorem State.Ready.perform {Q : Unit → State → Prop} (h : s.Ready)
    (hq : Q () (s.emit "" none op)) : Meets (perform op) s Q :=
  (meets_perform h.wf h.isOpen).mpr hq

theorem State.Ready.address {base : ValueId} {offset : Nat} {Q : ValueId → State → Prop} (h : s.Ready)
    (hq : Q (s.offset offset).function.freshValue (s.address base offset)) :
    Meets (Direct.address base offset) s Q := by
  simp only [Direct.address, meets_bind]
  exact h.define <| (h.emit rfl).define hq

theorem popCondition_decides (hv : s.Valid cx dom calls) (hl : s.isDead = false) :
    Meets (popCondition opcode) s fun (lhs, cond, rhs) t => s.Decides lhs cond rhs t := by
  simp only [popCondition, meets_bind]
  refine (popOperand_live_meets hv hl).mono ?_
  rintro o _ ⟨rest, hs, hf, rfl, ho⟩
  cases o
  case comparison => exact .comparison hs
  case value v =>
    have ⟨ty, hu⟩ := ho
    have hv := hv.stack_tail hs hf
    have hu' : ({ s with stack := rest } : State).function.Usable dom s.block v ty := hu
    simp only [meets_bind, typeOf_meets hu', meets_ite, meets_pure]
    exact ⟨fun _ => trivial, fun _ => hv.ready.define (.value hs hu.hasType)⟩

theorem step_computes {i : Instruction} (hv : s.Valid cx dom calls) (hl : s.isDead = false)
    (hi : match i with
      | .block _ | .loop _ | .if_ _ | .else_ | .end_ | .br _ | .brIf _ | .return_ => False
      | _ => True) :
    Meets (step cx i) s fun _ t => s.Computes cx i t := by
  cases i <;> simp only [step, meets_bind, meets_discard]
  case binary =>
    simp only [binary, meets_bind, meets_ite]
    refine ⟨fun _ => trivial, fun _ => ?_⟩
    refine (popTyped_twice_meets hv hl).mono fun rhs _ h => h.mono ?_
    rintro lhs _ ⟨rest, hs, rfl, hv, _⟩
    exact hv.ready.define (.binary hs)
  case compare =>
    simp only [compare, meets_bind, meets_ite]
    refine ⟨fun _ => trivial, fun _ => ?_⟩
    refine (popTyped_twice_meets hv hl).mono fun rhs _ h => h.mono ?_
    rintro lhs _ ⟨rest, hs, rfl, _, _, ht⟩
    exact .compare hs ht
  case eqz =>
    simp only [eqz, meets_bind]
    refine (popTyped_pop_meets hv hl).mono ?_
    rintro v _ ⟨rest, hs, rfl, hv, ht⟩
    exact hv.ready.define (.eqz hs ht)
  case neg =>
    simp only [neg, meets_bind, meets_ite]
    refine ⟨fun _ => trivial, fun _ => (popTyped_pop_meets hv hl).mono ?_⟩
    rintro v _ ⟨rest, hs, rfl, hv, ht⟩
    exact hv.ready.define (.neg hs)
  case floor =>
    simp only [floor, meets_bind, meets_ite]
    refine ⟨fun _ => trivial, fun _ => (popTyped_pop_meets hv hl).mono ?_⟩
    rintro v _ ⟨rest, hs, rfl, hv, ht⟩
    exact hv.ready.define <| (hv.ready.emit rfl).define (.floor hs ht)
  case const => exact hv.ready.define .const
  case localGet index =>
    simp only [localGet, meets_bind, Context.local]
    cases hs : cx.locals[index]?
    case none => trivial
    case some slot => exact hv.ready.define (.localGet hs)
  case localSet index =>
    simp only [localSet, meets_bind, Context.local]
    cases hs : cx.locals[index]?
    case none => trivial
    case some slot =>
      refine (popTyped_pop_meets hv hl).mono ?_
      rintro v _ ⟨rest, hk, rfl, hv, ht⟩
      exact hv.ready.perform (.localSet hs hk ht)
  case localTee index =>
    simp only [localSet, meets_bind, Context.local]
    cases hs : cx.locals[index]?
    case none => trivial
    case some slot =>
      refine (popTyped_pop_meets hv hl).mono ?_
      rintro v _ ⟨rest, hk, rfl, hv, ht⟩
      exact hv.ready.perform (.localTee hs hk ht)
  case globalGet index =>
    simp only [globalGet, meets_bind, Context.global]
    cases hs : cx.globals[index]?
    case none => trivial
    case some slot =>
      exact hv.ready.define <| (hv.ready.emit rfl).define (.globalGet hs)
  case globalSet index =>
    simp only [globalSet, meets_bind, Context.global]
    cases hs : cx.globals[index]?
    case none => trivial
    case some slot =>
      simp only [meets_ofExcept_ok, meets_ite, meets_bind]
      refine ⟨fun _ => trivial, fun _ => (popTyped_pop_meets hv hl).mono ?_⟩
      rintro v _ ⟨rest, hk, rfl, hv, ht⟩
      exact hv.ready.define <| (hv.ready.emit rfl).perform (.globalSet hs hk ht)
  case load =>
    simp only [load, meets_bind]
    refine (popTyped_pop_meets hv hl).mono ?_
    rintro v _ ⟨rest, hs, rfl, hv, _⟩
    exact hv.ready.address <| (hv.ready.emit rfl |>.emit rfl).define (.load hs)
  case store =>
    simp only [store, meets_bind]
    refine (popTyped_twice_meets hv hl).mono fun v _ h => h.mono ?_
    rintro base _ ⟨rest, hs, rfl, hv, ht, _⟩
    exact hv.ready.address <| (hv.ready.emit rfl |>.emit rfl).perform (.store hs ht)
  case call index =>
    simp only [call, meets_bind, Context.callee]
    cases hc : cx.callees[index]?
    case none => trivial
    case some callee =>
      simp only [meets_ofExcept_ok]
      refine accept_meets fun _ => ?_
      cases hr : callee.signature.result
      case error => exact benign_of_signature_result hr
      case ok result =>
        refine (popArguments_live_meets hv hl _).mono ?_
        rintro args _ ⟨rest, hs, rfl, hv, hlen⟩
        have hlen : args.length = callee.signature.params.length := by
          simpa [Bytecode.Signature.paramTypes] using hlen
        simp only [Meets, append_eq_ok hv.draft.wf hv.isOpen]
        cases result
        case none => exact .call hc hr hs hlen
        case some => exact .call hc hr hs hlen
  case drop =>
    refine (popOperand_live_meets hv hl).mono ?_
    rintro o _ ⟨rest, hs, _, rfl, _⟩
    exact .drop hs
  case nop => exact .nop
  case block | loop | if_ | else_ | end_ | br | brIf | return_ => exact hi.elim
  all_goals trivial

end StackCompiler.Lowering.Direct
