import StackCompiler.Proofs.Convention.Agreement
import StackCompiler.Proofs.Slots.Setup
import StackCompiler.Proofs.Ssa.Soundness
import StackCompiler.Proofs.Typing.Acceptance
import Mathlib.Data.List.Sort

-- The stack slots of a lowered function are its variables: there is one for each parameter and each
-- local, only loads and stores of its type go to it, and it has a value before it is read.

namespace StackCompiler

namespace Ssa

namespace Op

def isAlloc : Op → Bool
  | alloc _ _ => true
  | _ => false

def isStore : Op → Bool
  | store _ _ => true
  | _ => false

-- Where a load or a store goes.
def address? : Op → Option ValueId
  | load a | store _ a => some a
  | _ => none

theorem isAlloc_iff {op : Op} : op.isAlloc = true ↔ ∃ size align, op = .alloc size align := by
  cases op <;> simp [isAlloc]

end Op

namespace Function

variable {f : Function} {b e : BlockId} {v : ValueId} {op op' : Op} {blocks : List BlockId}

-- The stack slots of the entry block, in the order in which they are set up.
def slots (f : Function) : List ValueId :=
  (f.entry.toList.flatMap f.insts).filter fun v => (f.value? v).any (·.op.isAlloc)

-- The type of what an instruction loads or stores.
def accessed (f : Function) (d : ValueDef) : Option Scalar :=
  match d.op with
  | .store u _ => (f.value? u).bind ValueDef.type
  | _ => d.type

-- The value `u` is the first one of variable `i`: that of the parameter, or zero for a local.
def First (f : Function) (params locals : List Scalar) (i : Nat) (u : ValueId) : Prop :=
  if i < params.length then f.params[i]? = some u
  else ∃ ty, locals[i - params.length]? = some ty ∧ f.IsZero u ty

-- The slots of a function are variables of the given types.
structure Slotted (globals : List Bytecode.Global) (params locals : List Scalar) (f : Function) :
    Prop where
  typedParams : List.Forall₂ f.HasType f.params params
  sizedSlots : List.Forall₂ (fun v ty => f.HasOp v (.alloc ty.size ty.size)) f.slots (params ++ locals)
  nodup : f.slots.Nodup
  -- There are no others, in whatever block.
  all : ∀ {v size align}, f.HasOp v (.alloc size align) → v ∈ f.slots
  -- No address is stored, passed on, returned, compared or computed with.
  confined : ∀ {v d}, f.value? v = some d → ∀ u ∈ d.op.data, ∀ op, f.HasOp u op → op.isAddress = false
  slotTyped : ∀ {v d a} {i : Nat}, f.value? v = some d → d.op.address? = some a → f.slots[i]? = some a →
    f.accessed d = (params ++ locals)[i]?
  globalTyped : ∀ {v d a g}, f.value? v = some d → d.op.address? = some a → f.HasOp a (.globalAddr g) →
    ∃ decl, globals[g.index]? = some decl ∧ f.accessed d = some decl.type.scalar ∧
      (d.op.isStore = true → decl.isMutable = true)
  -- On each path, what runs before a load has stored the first value.
  initialised : ∀ {b blocks before v after a} {i : Nat}, f.Path b blocks →
    blocks.reverse.flatMap f.insts = before ++ v :: after → f.HasOp v (.load a) →
    f.slots[i]? = some a → ∃ w ∈ before, ∃ u, f.HasOp w (.store u a) ∧ f.First params locals i u

theorem HasOp.unique (h : f.HasOp v op) (h' : f.HasOp v op') : op = op' := by
  obtain ⟨d, hd, rfl⟩ := h
  obtain ⟨d', hd', rfl⟩ := h'
  cases hd.symm.trans hd'
  rfl

theorem Plain.isAddress (h : f.Plain v) (ho : f.HasOp v op) : op.isAddress = false := by
  obtain ⟨d, hd, ha, _⟩ := h
  exact HasOp.unique ⟨d, hd, rfl⟩ ho ▸ ha

theorem mem_slots_iff (he : f.entry = some e) :
    v ∈ f.slots ↔ v ∈ f.insts e ∧ ∃ size align, f.HasOp v (.alloc size align) := by
  simp only [slots, he, Option.toList_some, List.flatMap_singleton, List.mem_filter,
    Option.any_eq_true, Op.isAlloc_iff, HasOp]
  refine and_congr_right fun _ => ⟨?_, ?_⟩
  · rintro ⟨d, hd, size, align, ho⟩
    exact ⟨size, align, d, hd, ho⟩
  · rintro ⟨size, align, d, hd, ho⟩
    exact ⟨d, hd, size, align, ho⟩

theorem WellFormed.ascending_slots (hw : f.WellFormed) (he : f.entry = some e) :
    f.slots.Pairwise (·.index < ·.index) := by
  rw [slots, he, Option.toList_some, List.flatMap_singleton]
  exact (hw.ascending e).filter _

-- Slots that are all there are, in the order of their numbers.
theorem WellFormed.slots_eq {addresses : List ValueId} (hw : f.WellFormed) (he : f.entry = some e)
    (ha : addresses.Pairwise (·.index < ·.index)) (hm : ∀ v, v ∈ f.slots ↔ v ∈ addresses) :
    f.slots = addresses := by
  have : Std.Irrefl fun v w : ValueId => v.index < w.index := ⟨fun _ => Nat.lt_irrefl _⟩
  have : Std.Antisymm fun v w : ValueId => v.index < w.index :=
    ⟨fun _ _ h h' => absurd h (Nat.lt_asymm h')⟩
  exact (hw.ascending_slots he).eq_of_mem_iff ha hm

-- What runs first on every path is the entry block.
theorem Path.exists_insts_append (h : f.Path b blocks) (he : f.entry = some e) :
    ∃ rest, blocks.reverse.flatMap f.insts = f.insts e ++ rest := by
  induction h
  case entry hb =>
    cases he.symm.trans hb
    exact ⟨[], by simp⟩
  case step b blocks _ _ ih =>
    obtain ⟨rest, hr⟩ := ih
    exact ⟨rest ++ f.insts b, by simp [hr]⟩

end Function

end Ssa

-- An element that is not in the first part of a list stands behind all of it.
theorem subset_of_append_eq_append_cons {α : Type} {first rest before after : List α} {x : α}
    (h : first ++ rest = before ++ x :: after) (hx : x ∉ first) : first ⊆ before := by
  rcases List.append_eq_append_iff.mp h with ⟨more, rfl, _⟩ | ⟨more, rfl, hm⟩
  case inl => exact List.subset_append_left ..
  case inr =>
    cases more
    case nil => simp
    case cons y more =>
      cases hm
      exact absurd (by simp) hx

namespace Lowering.Direct

open Bytecode (ValueType)
open Ssa (BlockId Function Op ValueDef ValueId)

-- What a load or a store obeys, in terms of where it goes.
theorem Obeys.accesses {cx : Context} {f : Function} {v a : ValueId} {d : ValueDef}
    (h : Obeys cx f v d.type d.op) (ha : d.op.address? = some a) :
    ∃ ty, f.accessed d = some ty ∧ Accesses cx f d.op.isStore a ty := by
  obtain ⟨name, type, op, block⟩ := d
  have hop := h.2
  cases op <;> cases ha
  case load => exact hop
  case store =>
    obtain ⟨ty, ht, hacc⟩ := hop
    exact ⟨ty, Function.type_of_hasType ht, hacc⟩

namespace Lowered

variable {globals : List GlobalSlot} {callees : List Callee} {own : Callee} {body : Bytecode.Body}
variable (l : Lowered globals callees own body)

-- In front of the body, the slots get the values of the parameters and zeros.
theorem exists_sets : ∃ zeros,
    Sets globals callees l.result (l.origin.blank own.name l.result) (l.params ++ l.locals)
      (l.last.function.params ++ zeros) l.ready ∧
    List.Forall₂ l.ready.function.IsZero zeros (body.locals.map ValueType.scalar) ∧
    (l.params ++ l.locals).map Slot.type =
      own.signature.paramTypes ++ body.locals.map ValueType.scalar := by
  have hv : (l.origin.blank own.name l.result).Valid ⟨globals, callees, [], l.result⟩ _ [] :=
    l.origin.valid_blank
  obtain ⟨hd, hpt, sources, hp, hparams⟩ := (declareParams_sets hv.ready).of_ok l.declareParams_eq
  obtain ⟨_, hlt, zeros, hl, hz⟩ := (declareLocals_sets hd).of_ok l.declareLocals_eq
  have hs : l.last.function.params = sources :=
    (congrArg Ssa.Declaration.params l.declaration_eq).trans hparams
  exact ⟨zeros, hs ▸ hp.append hl, hz, by rw [List.map_append, hpt, hlt]⟩

theorem tame : l.last.Tame l.context ∧ l.ready.function.Begins l.last.function := by
  obtain ⟨_, hs, _, _⟩ := l.exists_sets
  have hblank : (l.origin.blank own.name l.result).Tame ⟨globals, callees, [], l.result⟩ := by
    refine ⟨fun hd => ?_, by simp, by simp⟩
    cases hd
  obtain ⟨hended, hb, _⟩ := lowerCode_tames (hs.tame hblank) _ _ l.lowerCode_eq
  obtain ⟨hlast, hb'⟩ := l.concludes.tame hended
  exact ⟨hlast, hb.trans hb'⟩

theorem initial_ready : l.ready.function.Initial := by
  obtain ⟨_, hs, _, _⟩ := l.exists_sets
  refine hs.initial fun v d hd => ?_
  cases hd

theorem entry_ready : l.last.function.entry = some l.ready.block := by
  have hr := (l.inside_declared.trans l.inside_ready).entry_eq
  rwa [l.valid_ready.draft.entry_eq, ← l.finished.complete.draft.entry_eq] at hr

theorem allocated {slot : Slot} (hm : slot ∈ l.params ++ l.locals) :
    l.last.function.HasOp slot.address (.alloc slot.type.size slot.type.size) ∧
      slot.address ∈ l.last.function.insts l.ready.block := by
  obtain ⟨_, hs, _, _⟩ := l.exists_sets
  obtain ⟨ho, hi⟩ := hs.allocated slot hm
  exact ⟨l.tame.2.hasOp ho rfl, (l.tame.2.insts _).subset hi⟩

theorem exists_slot {v : ValueId} {size align : Nat} (h : l.last.function.HasOp v (.alloc size align)) :
    ∃ slot ∈ l.params ++ l.locals, slot.address = v := by
  obtain ⟨d, hd, ho⟩ := h
  have hv := (l.tame.1.values hd).2
  rw [ho] at hv
  exact hv

theorem slots_eq : l.last.function.slots = (l.params ++ l.locals).map Slot.address := by
  obtain ⟨_, hs, _, _⟩ := l.exists_sets
  refine l.finished.complete.draft.wf.slots_eq l.entry_ready hs.ascending fun v => ?_
  rw [Function.mem_slots_iff l.entry_ready, List.mem_map]
  constructor
  · rintro ⟨_, size, align, h⟩
    exact l.exists_slot h
  · rintro ⟨slot, hm, rfl⟩
    exact ⟨(l.allocated hm).2, _, _, (l.allocated hm).1⟩

theorem sizedSlots : List.Forall₂ (fun v ty => l.last.function.HasOp v (.alloc ty.size ty.size))
    l.last.function.slots ((l.params ++ l.locals).map Slot.type) := by
  rw [l.slots_eq, List.forall₂_map_left_iff, List.forall₂_map_right_iff, List.forall₂_same]
  exact fun slot hm => (l.allocated hm).1

-- A variable and its slot.
theorem exists_of_slots {i : Nat} {a : ValueId} (h : l.last.function.slots[i]? = some a) :
    ∃ slot, (l.params ++ l.locals)[i]? = some slot ∧ slot.address = a := by
  rw [l.slots_eq, List.getElem?_map] at h
  exact Option.map_eq_some_iff.mp h

theorem nodup_slots : l.last.function.slots.Nodup := by
  refine (l.finished.complete.draft.wf.ascending_slots l.entry_ready).imp fun hlt he => ?_
  exact Nat.ne_of_lt hlt (congrArg ValueId.index he)

theorem address_inj {x y : Slot} (hx : x ∈ l.params ++ l.locals) (hy : y ∈ l.params ++ l.locals)
    (h : x.address = y.address) : x = y :=
  List.inj_on_of_nodup_map (l.slots_eq ▸ l.nodup_slots) hx hy h

-- Loads and stores of a variable are of its type.
theorem slotTyped {v a : ValueId} {d : ValueDef} {i : Nat} (hd : l.last.function.value? v = some d)
    (ha : d.op.address? = some a) (hi : l.last.function.slots[i]? = some a) :
    l.last.function.accessed d = ((l.params ++ l.locals).map Slot.type)[i]? := by
  obtain ⟨slot, hs, rfl⟩ := l.exists_of_slots hi
  have hm := List.mem_of_getElem? hs
  obtain ⟨ty, ht, hacc⟩ := (l.tame.1.values hd).accesses ha
  rw [ht, List.getElem?_map, hs, Option.map_some]
  cases hacc
  case slot hm' he => rw [l.address_inj hm' hm he]
  case global hg _ => cases hg.unique (l.allocated hm).1
  case pointer hp => cases hp.isAddress (l.allocated hm).1

-- Loads and stores of a global are of its type.
theorem globalTyped {v a : ValueId} {d : ValueDef} {g : Ssa.GlobalId}
    (hd : l.last.function.value? v = some d) (ha : d.op.address? = some a)
    (hg : l.last.function.HasOp a (.globalAddr g)) :
    ∃ slot ∈ globals, slot.id = g ∧ l.last.function.accessed d = some slot.type ∧
      (d.op.isStore = true → slot.isMutable = true) := by
  obtain ⟨ty, ht, hacc⟩ := (l.tame.1.values hd).accesses ha
  cases hacc
  case slot hm he => cases hg.unique (he ▸ (l.allocated hm).1)
  case global slot hm hs hg' =>
    cases hs.unique hg
    exact ⟨slot, hm, rfl, ht, hg'⟩
  case pointer hp => cases hp.isAddress hg

-- What the function loads, it does not load in front of the body.
theorem not_mem_ready_of_load {v a : ValueId} {b : BlockId} (h : l.last.function.HasOp v (.load a)) :
    v ∉ l.ready.function.insts b := by
  intro hv
  obtain ⟨d, hd, _⟩ := l.valid_ready.draft.wf.listed hv
  obtain ⟨ht, hl⟩ := l.initial_ready v d hd
  exact hl a (Function.HasOp.unique ⟨d, l.tame.2.value hd ht, rfl⟩ h)

-- In front of the body, each variable gets its first value.
theorem exists_stored {a : ValueId} {i : Nat} (h : l.last.function.slots[i]? = some a) :
    ∃ w ∈ l.ready.function.insts l.ready.block, ∃ u, l.last.function.HasOp w (.store u a) ∧
      l.last.function.First own.signature.paramTypes (body.locals.map ValueType.scalar) i u := by
  obtain ⟨zeros, hs, hz, _⟩ := l.exists_sets
  have hstored := forall₂_getElem? hs.stored i
  rw [← l.slots_eq, h] at hstored
  generalize hu : (l.last.function.params ++ zeros)[i]? = source at hstored
  cases hstored
  case some u hw =>
    obtain ⟨w, hw, ho⟩ := hw
    refine ⟨w, hw, u, l.tame.2.hasOp ho rfl, ?_⟩
    rw [Function.First, ← l.typed_params.length_eq]
    split
    case isTrue hlt => rwa [List.getElem?_append_left hlt] at hu
    case isFalse hlt =>
      rw [List.getElem?_append_right (Nat.le_of_not_lt hlt)] at hu
      have hzero := forall₂_getElem? hz (i - l.last.function.params.length)
      rw [hu] at hzero
      generalize (body.locals.map ValueType.scalar)[i - l.last.function.params.length]? = type at hzero ⊢
      cases hzero
      case some ty hzero => exact ⟨ty, rfl, l.tame.2.isZero hzero⟩

end Lowered

theorem exists_of_mem_globalSlots {m : Bytecode.Module} {slot : GlobalSlot} (h : slot ∈ m.globalSlots) :
    ∃ g, m.globals[slot.id.index]? = some g ∧ slot.type = g.type.scalar ∧
      slot.isMutable = g.isMutable := by
  obtain ⟨⟨g, i⟩, hg, rfl⟩ := List.mem_map.mp h
  exact ⟨g, List.mem_zipIdx_iff_getElem?.mp hg, rfl, rfl⟩

theorem Lowered.slotted {m : Bytecode.Module} {callees : List Callee} {own : Callee}
    {body : Bytecode.Body} (l : Lowered m.globalSlots callees own body) :
    l.last.function.trimmed.Slotted m.globals own.signature.paramTypes
      (body.locals.map ValueType.scalar) := by
  obtain ⟨_, _, _, htypes⟩ := l.exists_sets
  refine ⟨l.typed_params, htypes ▸ l.sizedSlots, ?nodup, ?all, ?confined, ?slotTyped, ?globalTyped,
    ?initialised⟩
  case nodup => exact l.nodup_slots
  case all =>
    intro v size align h
    exact l.slots_eq ▸ List.mem_map.mpr (l.exists_slot h)
  case confined =>
    intro v d hd u hu op ho
    exact ((l.tame.1.values hd).1 u hu).isAddress ho
  case slotTyped =>
    intro v d a i hd ha hi
    exact htypes ▸ l.slotTyped hd ha hi
  case globalTyped =>
    intro v d a g hd ha hg
    obtain ⟨slot, hm, rfl, ht, hs⟩ := l.globalTyped hd ha hg
    obtain ⟨decl, hdecl, hty, hmut⟩ := exists_of_mem_globalSlots hm
    exact ⟨decl, hdecl, hty ▸ ht, hmut ▸ hs⟩
  case initialised =>
    intro b blocks before v after a i hp htrace hload hi
    obtain ⟨rest, hrest⟩ := hp.exists_insts_append l.entry_ready
    obtain ⟨more, hmore⟩ := l.tame.2.insts l.ready.block
    obtain ⟨w, hw, u, ho, hfirst⟩ := l.exists_stored hi
    -- All of the code in front of the body runs before the load.
    have hall : l.ready.function.insts l.ready.block ++ (more ++ rest) = before ++ v :: after := by
      rw [← List.append_assoc, hmore, ← htrace, hrest]
      rfl
    have hsub := subset_of_append_eq_append_cons hall (l.not_mem_ready_of_load hload)
    exact ⟨w, hsub hw, u, ho, hfirst⟩

end Lowering.Direct

namespace Bytecode.Module

open Lowering (Options)
open Ssa (Function)

variable {m : Module} {options : Options} {j j' : Journal} {module : Ssa.Module}

-- The slots of every function are variables, one for each parameter and local of its body.
theorem lower_slotted (h : m.lower options j = .ok module j') (k : Nat) (f : Function)
    (hf : module.functions[k]? = some f) :
    ∃ body s, m.bodies[k]? = some body ∧ m.signature? (m.imports.length + k) = some s ∧
      f.Slotted m.globals s.paramTypes (body.locals.map ValueType.scalar) := by
  obtain ⟨callees, _, _, hl⟩ := lowered_of_lower h
  obtain ⟨own, body, hb, ho, l, rfl⟩ := hl k f hf
  obtain ⟨s, hs, rfl⟩ := Option.map_eq_some_iff.mp ho
  exact ⟨body, s, hb, hs, l.slotted⟩

-- A function that doubles a global as often as its argument says, by way of a local.
def doubling : Module where
  types := [⟨[.i32], []⟩]
  globals := [⟨.i64, true, .i64 1⟩]
  bodies := [{
    type := 0
    locals := [.i64]
    code := [.loop .empty, .globalGet 0, .localTee 1, .localGet 1, .binary .i64 .add, .globalSet 0,
      .localGet 0, .const (.i32 1), .binary .i32 .sub, .localTee 0, .brIf 0, .end_, .end_] }]

theorem lower_slotted_doubling : ∃ module j' f, doubling.lower {} #[] = .ok module j' ∧
    module.functions[0]? = some f ∧ f.Slotted [⟨.i64, true, .i64 1⟩] [.i32] [.i64] := by
  obtain ⟨module, j', h⟩ : ∃ module j', doubling.lower {} #[] = .ok module j' := by
    refine lower_isOk_iff.mpr ⟨by simp [doubling], ?_, ?_⟩ <;>
      simp only [doubling, List.forall_mem_singleton]
    · decide
    · exact ⟨⟨[.i32], []⟩, rfl, by decide, by decide +kernel⟩
  obtain ⟨_, _, hlen, _⟩ := lowered_of_lower h
  obtain ⟨f, hf⟩ : ∃ f, module.functions[0]? = some f :=
    ⟨_, List.getElem?_eq_getElem (by simp [hlen, doubling])⟩
  obtain ⟨body, s, hb, hs, hslots⟩ := lower_slotted h 0 f hf
  cases hb
  cases hs
  exact ⟨module, j', f, h, hf, hslots⟩

end Bytecode.Module

end StackCompiler
