import StackCompiler.Proofs.Slots.Regions

-- The code in front of a body: every parameter and every local gets a slot, with its first value in
-- it, before anything is loaded.

namespace StackCompiler

namespace Ssa.Function

variable {f g : Function} {b : BlockId} {u v a : ValueId} {name : String} {type : Option Scalar} {op : Op}

-- Code that only fills slots: no load and no terminator.
def Initial (f : Function) : Prop :=
  ∀ v d, f.value? v = some d → d.op.isTerminator = false ∧ ∀ a, d.op ≠ .load a

-- The value `u` is stored at `a` in block `b`.
def StoredIn (f : Function) (b : BlockId) (a u : ValueId) : Prop :=
  ∃ w ∈ f.insts b, f.HasOp w (.store u a)

def IsZero (f : Function) (u : ValueId) (ty : Scalar) : Prop :=
  ∃ d, f.value? u = some d ∧ d.type = some ty ∧ d.op = .const (.zero ty)

theorem Begins.storedIn (h : f.Begins g) (hs : f.StoredIn b a u) : g.StoredIn b a u := by
  obtain ⟨w, hw, ho⟩ := hs
  exact ⟨w, (h.insts b).subset hw, h.hasOp ho rfl⟩

theorem Begins.isZero {ty : Scalar} (h : f.Begins g) (hz : f.IsZero u ty) : g.IsZero u ty := by
  obtain ⟨d, hd, ht, ho⟩ := hz
  exact ⟨d, h.value hd (by simp [ho, Op.isTerminator]), ht, ho⟩

theorem Initial.emit (h : f.Initial) (ht : op.isTerminator = false) (hl : ∀ a, op ≠ .load a) :
    (f.emit b name type op).Initial := by
  intro v d hd
  rw [emit_value?] at hd
  split at hd
  case isTrue =>
    cases hd
    exact ⟨ht, hl⟩
  case isFalse => exact h v d hd

theorem Initial.addParam {ty : Scalar} (h : f.Initial) : (f.addParam name ty).2.Initial := by
  intro v d hd
  rw [addParam_value?] at hd
  split at hd
  case isTrue =>
    cases hd
    exact ⟨rfl, by simp⟩
  case isFalse => exact h v d hd

end Ssa.Function

namespace Lowering.Direct

open Bytecode (ValueType)
open Ssa (BlockId Function Op ValueId)

variable {globals : List GlobalSlot} {callees : List Callee} {result : Option Scalar}
variable {cx cx' : Context} {f : Function} {s t u : State} {v : ValueId} {op : Op} {name : String}
variable {type : Option Scalar} {ty : Scalar} {index : Nat} {slots slots' : List Slot}
variable {sources sources' : List ValueId} {types : List Scalar}

-- More locals allow for more.
theorem Accesses.widen {isStore : Bool} {a : ValueId} (h : Accesses cx f isStore a ty)
    (hl : cx.locals ⊆ cx'.locals) (hg : cx'.globals = cx.globals) : Accesses cx' f isStore a ty := by
  cases h
  case slot hm ha => exact .slot (hl hm) ha
  case global hm ha hs => exact .global (hg ▸ hm) ha hs
  case pointer hp => exact .pointer hp

theorem Obeys.widen (h : Obeys cx f v type op) (hl : cx.locals ⊆ cx'.locals)
    (hg : cx'.globals = cx.globals) : Obeys cx' f v type op := by
  refine ⟨h.1, ?_⟩
  have hop := h.2
  cases op
  case alloc =>
    obtain ⟨slot, hm, ha⟩ := hop
    exact ⟨slot, hl hm, ha⟩
  case load =>
    obtain ⟨ty, ht, ha⟩ := hop
    exact ⟨ty, ht, ha.widen hl hg⟩
  case store =>
    obtain ⟨ty, ht, ha⟩ := hop
    exact ⟨ty, ht, ha.widen hl hg⟩
  all_goals exact hop

theorem State.Tame.widen (h : s.Tame cx) (hl : cx.locals ⊆ cx'.locals)
    (hg : cx'.globals = cx.globals) : s.Tame cx' :=
  ⟨fun hd => (h.values hd).widen hl hg, h.stack, h.regions⟩

theorem State.Tame.addParam (h : s.Tame cx) : (s.addParam name ty).Tame cx := by
  have hb : s.function.Begins (s.addParam name ty).function := Function.Grows.addParam.toBegins
  refine h.of_begins hb rfl rfl fun {v d} hd => ?_
  rw [State.addParam, Function.addParam_value?] at hd
  split at hd
  case isTrue =>
    cases hd
    exact ⟨by simp [Op.data, Op.operands], trivial⟩
  case isFalse => exact (h.values hd).mono hb

-- The code from `s` to `t` sets up `slots`, with the values `sources` in them.
structure Sets (globals : List GlobalSlot) (callees : List Callee) (result : Option Scalar) (s : State)
    (slots : List Slot) (sources : List ValueId) (t : State) : Prop where
  begins : s.function.Begins t.function
  block : t.block = s.block
  initial : s.function.Initial → t.function.Initial
  tame : ∀ {done}, s.Tame ⟨globals, callees, done, result⟩ →
    t.Tame ⟨globals, callees, done ++ slots, result⟩
  allocated : ∀ slot ∈ slots, t.function.HasOp slot.address (.alloc slot.type.size slot.type.size) ∧
    slot.address ∈ t.function.insts t.block
  -- The slots are set up in order.
  ascending : (slots.map Slot.address).Pairwise (·.index < ·.index)
  lower : ∀ slot ∈ slots, s.function.freshValue.index ≤ slot.address.index
  upper : ∀ slot ∈ slots, slot.address.index < t.function.freshValue.index
  size : s.function.freshValue.index ≤ t.function.freshValue.index
  stored : List.Forall₂ (t.function.StoredIn t.block) (slots.map Slot.address) sources

namespace Sets

theorem nil : Sets globals callees result s [] [] s where
  begins := .refl _
  block := rfl
  initial h := h
  tame h := by simpa using h
  allocated := by simp
  ascending := by simp
  lower := by simp
  upper := by simp
  size := Nat.le_refl _
  stored := .nil

theorem append (h : Sets globals callees result s slots sources t)
    (h' : Sets globals callees result t slots' sources' u) :
    Sets globals callees result s (slots ++ slots') (sources ++ sources') u where
  begins := h.begins.trans h'.begins
  block := h'.block.trans h.block
  initial hi := h'.initial (h.initial hi)
  tame ht := by simpa using h'.tame (h.tame ht)
  allocated := by
    refine List.forall_mem_append.mpr ⟨fun slot hm => ?_, h'.allocated⟩
    obtain ⟨ho, hi⟩ := h.allocated slot hm
    exact ⟨h'.begins.hasOp ho rfl, h'.block ▸ (h'.begins.insts _).subset hi⟩
  ascending := by
    rw [List.map_append, List.pairwise_append]
    refine ⟨h.ascending, h'.ascending, List.forall_mem_map.mpr fun x hx => ?_⟩
    exact List.forall_mem_map.mpr fun y hy => Nat.lt_of_lt_of_le (h.upper x hx) (h'.lower y hy)
  lower := List.forall_mem_append.mpr ⟨h.lower, fun x hx => h.size.trans (h'.lower x hx)⟩
  upper := List.forall_mem_append.mpr
    ⟨fun x hx => Nat.lt_of_lt_of_le (h.upper x hx) h'.size, h'.upper⟩
  size := h.size.trans h'.size
  stored := by
    rw [List.map_append]
    refine List.rel_append (h.stored.imp fun _ _ hs => ?_) h'.stored
    exact h'.block ▸ h'.begins.storedIn hs

theorem journal {j : Journal} (h : Sets globals callees result s slots sources t) :
    Sets globals callees result s slots sources { t with journal := j } :=
  { h with tame := fun hd => ⟨(h.tame hd).values, (h.tame hd).stack, (h.tame hd).regions⟩ }

end Sets

theorem mem_insts_emit (hs : s.Ready) :
    s.function.freshValue ∈ (s.emit name type op).function.insts s.block := by
  rw [State.emit, Function.emit_insts_self hs.isOpen.created]
  exact List.mem_append_right _ List.mem_cons_self

theorem freshValue_emit :
    (s.emit name type op).function.freshValue.index = s.function.freshValue.index + 1 := by
  simp [State.emit, Function.emit, Function.freshValue]

-- A slot whose address is the next value, and more code that stores its first value.
theorem State.Ready.sets {w : State} {source : ValueId} (hs : s.Ready) (index : Nat) (hw : w.Ready)
    (hb : (s.alloc index ty).function.Begins w.function) (hblock : w.block = s.block)
    (hsize : s.function.freshValue.index < w.function.freshValue.index)
    (hinitial : s.function.Initial → w.function.Initial)
    (htame : ∀ {cx}, s.Tame cx → s.localSlot ty ∈ cx.locals → w.Tame cx)
    (hplain : w.function.Plain source) (htype : w.function.HasType source ty) :
    Sets globals callees result s [s.localSlot ty] [source]
      (w.emit "" none (.store source s.function.freshValue)) where
  begins := (Function.Begins.emit.trans hb).trans .emit
  block := hblock
  initial h := (hinitial h).emit rfl (by simp)
  tame {done} h := by
    have hm : s.localSlot ty ∈ done ++ [s.localSlot ty] := by simp
    have ha : Accesses ⟨globals, callees, done ++ [s.localSlot ty], result⟩ w.function true
        (s.localSlot ty).address (s.localSlot ty).type := .slot hm rfl
    refine (htame ?_ hm).emit (.store hplain htype ha)
    exact h.widen (List.subset_append_left ..) rfl
  allocated := by
    refine List.forall_mem_singleton.mpr ⟨?_, ?_⟩
    · exact (hb.trans .emit).hasOp ⟨_, Function.emit_value?_freshValue, rfl⟩ rfl
    · have hi := (hb.insts s.block).subset (mem_insts_emit hs)
      exact hblock ▸ (Function.Begins.emit.insts _).subset hi
  ascending := by simp
  lower := by simp [State.localSlot]
  upper := by
    refine List.forall_mem_singleton.mpr ?_
    rw [freshValue_emit]
    exact Nat.lt_succ_of_lt hsize
  size := by
    rw [freshValue_emit]
    omega
  stored := .cons ⟨_, mem_insts_emit hw, _, Function.emit_value?_freshValue, rfl⟩ .nil

theorem State.Ready.sets_zero (hs : s.Ready) :
    Sets globals callees result s [s.localSlot ty] [(s.alloc index ty).function.freshValue]
      (s.zero index ty) := by
  refine hs.sets index (hs.alloc.emit rfl) .emit rfl ?size ?initial ?tame ?plain ?type
  case size =>
    rw [freshValue_emit, State.alloc, freshValue_emit]
    omega
  case initial => exact fun h => (h.emit rfl (by simp)).emit rfl (by simp)
  case tame =>
    intro cx h hm
    have ha : (s.alloc index ty).Tame cx := h.emit ⟨by simp [Op.data, Op.operands], _, hm, rfl⟩
    exact ha.emit ⟨by simp [Op.data, Op.operands], trivial⟩
  case plain => exact ⟨_, Function.emit_value?_freshValue, rfl, rfl⟩
  case type => exact ⟨_, Function.emit_value?_freshValue, rfl⟩

theorem sets_addParam : Sets globals callees result s [] [] (s.addParam name ty) where
  begins := Function.Grows.addParam.toBegins
  block := rfl
  initial h := h.addParam
  tame h := by simpa using h.addParam
  allocated := by simp
  ascending := by simp
  lower := by simp
  upper := by simp
  size := by simp [State.addParam, Function.addParam, Function.freshValue, Function.pushValue]
  stored := .nil

theorem State.Ready.sets_param (hs : s.Ready) :
    Sets globals callees result s [s.paramSlot index ty] [s.function.freshValue]
      (s.param index ty) := by
  have hu : (s.addParam ("param" ++ toString index) ty).Ready := hs.addParam
  have hd : (s.addParam ("param" ++ toString index) ty).function.value? s.function.freshValue =
      some ⟨"param" ++ toString index, some ty, .param s.function.params.length, none⟩ := by
    simp [State.addParam, Function.addParam_value?]
  refine sets_addParam.append (hu.sets index hu.alloc (.refl _) rfl ?size ?initial ?tame ?plain
    ?type)
  case size =>
    rw [State.alloc, freshValue_emit]
    omega
  case initial => exact fun h => h.emit rfl (by simp)
  case tame => exact fun h hm => h.emit ⟨by simp [Op.data, Op.operands], _, hm, rfl⟩
  case plain => exact Function.Begins.emit.plain ⟨_, hd, rfl, rfl⟩
  case type => exact Function.Keeps.emit.hasType ⟨_, hd, rfl⟩

theorem declareParams_sets (hs : s.Ready) : Meets (declareParams index types) s fun slots t =>
    t.Ready ∧ slots.map Slot.type = types ∧ ∃ sources, Sets globals callees result s slots sources t ∧
      t.function.params = s.function.params ++ sources := by
  induction types generalizing s index
  case nil => exact ⟨hs, rfl, [], .nil, by simp⟩
  case cons ty types ih =>
    have hu : (s.addParam ("param" ++ toString index) ty).Ready := hs.addParam
    simp only [declareParams, allocLocal, meets_bind, meets_get, meets_set, meets_pure]
    refine hu.define (hu.alloc.perform ?_)
    refine (ih (s := s.param index ty) hs.param).mono fun slots t h => ?_
    obtain ⟨ht, hty, sources, h, hp⟩ := h
    have hp' : (s.param index ty).function.params = s.function.params ++ [s.function.freshValue] := rfl
    refine ⟨ht, by rw [List.map_cons, hty], s.function.freshValue :: sources, hs.sets_param.append h, ?_⟩
    rw [hp, hp', List.append_assoc]
    rfl

theorem declareLocals_sets (hs : s.Ready) : Meets (declareLocals name index types) s fun slots t =>
    t.Ready ∧ slots.map Slot.type = types ∧ ∃ sources, Sets globals callees result s slots sources t ∧
      List.Forall₂ t.function.IsZero sources types := by
  induction types generalizing s index
  case nil => exact ⟨hs, rfl, [], .nil, .nil⟩
  case cons ty types ih =>
    simp only [declareLocals, allocLocal, meets_bind, meets_note, meets_pure]
    refine hs.define (hs.alloc.define ((hs.alloc.emit rfl).perform ?_))
    let u : State := { s.zero index ty with journal := s.journal.record (.localDeclared index name) }
    have hu : u.Ready := ⟨hs.zero.wf, hs.zero.isOpen⟩
    refine (ih (s := u) hu).mono fun slots t h => ?_
    obtain ⟨ht, hty, sources, h, hz⟩ := h
    have hzero : u.function.IsZero (s.alloc index ty).function.freshValue ty :=
      Function.Begins.emit.isZero ⟨_, Function.emit_value?_freshValue, rfl, rfl⟩
    refine ⟨ht, by rw [List.map_cons, hty], _, hs.sets_zero.journal.append h, ?_⟩
    exact .cons (h.begins.isZero hzero) hz

end Lowering.Direct

end StackCompiler
