import StackCompiler.Ssa.Flow
import Mathlib.Data.List.Basic

-- How the operations that build a function change it, seen through what a reader of the function
-- sees: the definition of a value, the instructions of a block, and the terminator of a block.

namespace StackCompiler.Ssa.Function

-- The instructions that a block lists, none for a number that names no block.
def insts (f : Function) (b : BlockId) : List ValueId :=
  ((f.block? b).map BlockDef.insts).getD []

-- The number of the next value.
def freshValue (f : Function) : ValueId :=
  ⟨f.values.size⟩

-- The number of the next block.
def freshBlock (f : Function) : BlockId :=
  ⟨f.blocks.size⟩

-- A block that still takes instructions.
structure Open (f : Function) (b : BlockId) : Prop where
  created : b.index < f.blocks.size
  unclosed : f.terminator? b = none

variable {f g : Function} {b b₁ b₂ : BlockId} {v : ValueId} {d : ValueDef} {op : Op}

theorem terminator?_eq (f : Function) (b : BlockId) :
    f.terminator? b = ((f.insts b).getLast?.bind f.value?).bind fun d =>
      if d.op.isTerminator then some d.op else none := by
  unfold terminator? insts
  cases f.block? b <;> simp [Option.bind_assoc]

theorem terminator?_eq_some_iff :
    f.terminator? b = some op ↔ ∃ v d, (f.insts b).getLast? = some v ∧ f.value? v = some d ∧
      d.op = op ∧ op.isTerminator = true := by
  simp only [terminator?_eq, Option.bind_eq_some_iff]
  constructor
  case mp =>
    rintro ⟨d, ⟨v, hv, hd⟩, ho⟩
    split at ho
    case isTrue ht => cases ho; exact ⟨v, d, hv, hd, rfl, ht⟩
    case isFalse => contradiction
  case mpr =>
    rintro ⟨v, d, hv, hd, rfl, ht⟩
    exact ⟨d, ⟨v, hv, hd⟩, by simp [ht]⟩

theorem isTerminator_of_terminator? (h : f.terminator? b = some op) : op.isTerminator = true :=
  have ⟨_, _, _, _, _, ht⟩ := terminator?_eq_some_iff.mp h
  ht

theorem successors_eq_nil_of_terminator? (h : f.terminator? b = none) : f.successors b = [] := by
  simp [successors, h]

theorem successors_of_terminator? (h : f.terminator? b = some op) :
    f.successors b = op.successors := by
  simp [successors, h]

theorem terminator?_of_mem_successors (h : b₁ ∈ f.successors b) :
    ∃ op, f.terminator? b = some op ∧ b₁ ∈ op.successors := by
  cases ho : f.terminator? b
  case none => simp [successors, ho] at h
  case some op => exact ⟨op, rfl, by simpa [successors, ho] using h⟩

theorem Open.not_mem_successors (h : f.Open b) : b₁ ∉ f.successors b := by
  simp [successors_eq_nil_of_terminator? h.unclosed]

theorem isClosed_eq_false_iff : f.isClosed b = false ↔ f.terminator? b = none := by
  simp [isClosed]

theorem insts_eq_nil_of_not_created (h : ¬b.index < f.blocks.size) : f.insts b = [] := by
  simp [insts, block?, Array.getElem?_eq_none (Nat.le_of_not_lt h)]

theorem created_of_mem_insts (h : v ∈ f.insts b) : b.index < f.blocks.size := by
  by_contra hc
  simp [insts_eq_nil_of_not_created hc] at h

theorem created_of_mem_successors (h : b₁ ∈ f.successors b) : b.index < f.blocks.size := by
  have ⟨_, ho, _⟩ := terminator?_of_mem_successors h
  have ⟨_, _, hv, _⟩ := terminator?_eq_some_iff.mp ho
  exact created_of_mem_insts <| List.mem_of_getLast? hv

theorem index_lt_of_value? (h : f.value? v = some d) : v.index < f.values.size :=
  (Array.getElem?_eq_some_iff.mp h).1

theorem value?_freshValue (f : Function) : f.value? f.freshValue = none := by
  simp [value?, freshValue]

theorem ne_freshValue (h : f.value? v = some d) : v ≠ f.freshValue := by
  intro hv
  simp [hv, value?_freshValue] at h

theorem ne_freshBlock (h : b.index < f.blocks.size) : b ≠ f.freshBlock :=
  fun hb => absurd (congrArg BlockId.index hb ▸ h) (Nat.lt_irrefl _)

@[simp]
theorem freshBlock_index (f : Function) : f.freshBlock.index = f.blocks.size :=
  rfl

@[simp]
theorem freshValue_index (f : Function) : f.freshValue.index = f.values.size :=
  rfl

theorem mem_created_iff : b ∈ f.created ↔ b.index < f.blocks.size := by
  constructor
  case mp =>
    intro h
    have ⟨n, hn, hb⟩ := List.mem_map.mp h
    simpa [← hb] using hn
  case mpr => exact fun h => List.mem_map.mpr ⟨b.index, by simpa using h, rfl⟩

theorem nodup_created : f.created.Nodup :=
  List.Pairwise.map _ (fun _ _ hne h => hne (congrArg BlockId.index h)) List.nodup_range

-- What reads a function only through its blocks and values cannot tell two apart that agree on
-- these.
theorem terminator?_congr (hi : g.insts b = f.insts b) (hv : ∀ v ∈ f.insts b, g.value? v = f.value? v) :
    g.terminator? b = f.terminator? b := by
  simp only [terminator?_eq, hi]
  cases hl : (f.insts b).getLast?
  case none => rfl
  case some v => simp [hv v <| List.mem_of_getLast? hl]

theorem successors_congr (h : g.terminator? b = f.terminator? b) :
    g.successors b = f.successors b := by
  simp [successors, h]

-- The values that a block lists exist and know their block.
def Listed (f : Function) : Prop :=
  ∀ ⦃b v⦄, v ∈ f.insts b → ∃ d, f.value? v = some d ∧ d.block = some b

namespace Listed

variable (h : f.Listed)
include h

theorem not_fresh (hv : v ∈ f.insts b) : v ≠ f.freshValue := by
  obtain ⟨_, hd, _⟩ := h hv
  exact ne_freshValue hd

-- A value stands in one block only.
theorem block_eq (h₁ : v ∈ f.insts b₁) (h₂ : v ∈ f.insts b₂) : b₁ = b₂ := by
  obtain ⟨_, hd₁, hb₁⟩ := h h₁
  obtain ⟨_, hd₂, hb₂⟩ := h h₂
  cases hd₁.symm.trans hd₂
  exact Option.some.inj (hb₁.symm.trans hb₂)

end Listed

-- A value that knows its block stands in it.
def Filed (f : Function) : Prop :=
  ∀ ⦃b v d⦄, f.value? v = some d → d.block = some b → v ∈ f.insts b

-- Only the last instruction of a block can end it.
def Straight (f : Function) : Prop :=
  ∀ ⦃b v d⦄, v ∈ (f.insts b).dropLast → f.value? v = some d → d.op.isTerminator = false

namespace Straight

variable (h : f.Straight)
include h

-- A terminator stands at the end of its block.
theorem getLast?_of_mem_insts (hv : v ∈ f.insts b) (hd : f.value? v = some d)
    (ht : d.op.isTerminator = true) : (f.insts b).getLast? = some v := by
  have hne := List.ne_nil_of_mem hv
  rw [← List.dropLast_append_getLast hne, List.mem_append] at hv
  cases hv
  case inl hv => simp [h hv hd] at ht
  case inr hv => simp [List.getLast?_eq_some_getLast hne, List.mem_singleton.mp hv]

theorem terminator?_of_mem_insts (hv : v ∈ f.insts b) (hd : f.value? v = some d)
    (ht : d.op.isTerminator = true) : f.terminator? b = some d.op :=
  terminator?_eq_some_iff.mpr ⟨v, d, h.getLast?_of_mem_insts hv hd ht, hd, rfl, ht⟩

theorem isTerminator_eq_false (hn : f.terminator? b = none) (hv : v ∈ f.insts b)
    (hd : f.value? v = some d) : d.op.isTerminator = false := by
  by_contra hc
  have := h.terminator?_of_mem_insts hv hd (Bool.not_eq_false _ ▸ hc)
  simp [hn] at this

end Straight

-- A function whose lists fit together: the layout lists every block, a block lists its own values
-- in the order of their numbers with a terminator at most at its end, and parameters are the values
-- without a block.
structure WellFormed (f : Function) : Prop where
  layout_eq : f.layout = f.created
  entry_eq : f.entry = f.layout.head?
  listed : ∀ {b v}, v ∈ f.insts b → ∃ d, f.value? v = some d ∧ d.block = some b
  lists : ∀ {b v d}, f.value? v = some d → d.block = some b → v ∈ f.insts b
  ascending : ∀ b, (f.insts b).Pairwise (·.index < ·.index)
  inner : ∀ {b v d}, v ∈ (f.insts b).dropLast → f.value? v = some d → d.op.isTerminator = false
  params_iff : ∀ v, v ∈ f.params ↔ ∃ d, f.value? v = some d ∧ d.block = none

namespace WellFormed

variable (h : f.WellFormed)
include h

theorem mem_layout_iff : b ∈ f.layout ↔ b.index < f.blocks.size := by
  rw [h.layout_eq, mem_created_iff]

theorem entry_created (he : f.entry = some b) : b.index < f.blocks.size :=
  h.mem_layout_iff.mp <| List.mem_of_mem_head? (h.entry_eq ▸ he)

theorem predecessors_isEmpty_eq_false_iff :
    (f.predecessors b).isEmpty = false ↔ ∃ p, b ∈ f.successors p := by
  simp only [List.isEmpty_eq_false_iff_exists_mem, mem_predecessors_iff]
  exact exists_congr fun p => and_iff_right_of_imp fun hb =>
    h.mem_layout_iff.mpr (created_of_mem_successors hb)

theorem value?_of_mem_insts (hv : v ∈ f.insts b) : ∃ d, f.value? v = some d :=
  have ⟨d, hd, _⟩ := h.listed hv
  ⟨d, hd⟩

theorem toListed : f.Listed :=
  fun _ _ hv => h.listed hv

theorem block_eq_of_mem_insts (h₁ : v ∈ f.insts b₁) (h₂ : v ∈ f.insts b₂) : b₁ = b₂ :=
  h.toListed.block_eq h₁ h₂

theorem nodup_insts (b : BlockId) : (f.insts b).Nodup :=
  (h.ascending b).imp fun hlt he => absurd (he ▸ hlt) (Nat.lt_irrefl _)

theorem toFiled : f.Filed :=
  fun _ _ _ hd hb => h.lists hd hb

theorem toStraight : f.Straight :=
  fun _ _ _ hv hd => h.inner hv hd

theorem terminator?_of_mem_insts (hv : v ∈ f.insts b) (hd : f.value? v = some d)
    (ht : d.op.isTerminator = true) : f.terminator? b = some d.op :=
  h.toStraight.terminator?_of_mem_insts hv hd ht

theorem isTerminator_eq_false_of_open
    (ho : f.Open b) (hv : v ∈ f.insts b) (hd : f.value? v = some d) : d.op.isTerminator = false :=
  h.toStraight.isTerminator_eq_false ho.unclosed hv hd

end WellFormed

theorem wellFormed_empty (name : String) (result : Option Scalar) :
    (empty name result).WellFormed where
  layout_eq := rfl
  entry_eq := rfl
  listed := by simp [empty, insts, block?]
  lists := by simp [empty, value?]
  ascending := by simp [empty, insts, block?]
  inner := by simp [empty, insts, block?]
  params_iff := by simp [empty, value?]

section AddBlock

variable {name : String}

@[simp]
theorem addBlock_fst : (f.addBlock name).1 = f.freshBlock :=
  rfl

@[simp]
theorem addBlock_value? : (f.addBlock name).2.value? v = f.value? v :=
  rfl

@[simp]
theorem addBlock_freshValue : (f.addBlock name).2.freshValue = f.freshValue :=
  rfl

@[simp]
theorem addBlock_size : (f.addBlock name).2.blocks.size = f.blocks.size + 1 := by
  simp [addBlock]

@[simp]
theorem addBlock_insts : (f.addBlock name).2.insts b = f.insts b := by
  simp only [insts, block?, addBlock, Array.getElem?_push]
  split
  case isTrue h => simp [h]
  case isFalse => rfl

@[simp]
theorem addBlock_terminator? : (f.addBlock name).2.terminator? b = f.terminator? b :=
  terminator?_congr addBlock_insts fun _ _ => addBlock_value?

@[simp]
theorem addBlock_successors : (f.addBlock name).2.successors b = f.successors b :=
  successors_congr addBlock_terminator?

theorem insts_freshBlock : f.insts f.freshBlock = [] :=
  insts_eq_nil_of_not_created <| by simp

theorem terminator?_freshBlock : f.terminator? f.freshBlock = none := by
  simp [terminator?_eq, insts_freshBlock]

theorem addBlock_open_iff : (f.addBlock name).2.Open b ↔ f.Open b ∨ b = f.freshBlock := by
  constructor
  case mp =>
    rintro ⟨hc, hu⟩
    simp only [addBlock_size, addBlock_terminator?] at hc hu
    by_cases he : b = f.freshBlock
    case pos => exact .inr he
    case neg =>
      have hne : b.index ≠ f.blocks.size := fun hi => he (by cases b; simp_all [freshBlock])
      exact .inl ⟨by omega, hu⟩
  case mpr =>
    rintro (⟨hc, hu⟩ | rfl)
    · exact ⟨by simp; omega, by simpa using hu⟩
    · exact ⟨by simp, by simp [terminator?_freshBlock]⟩

theorem Listed.addBlock (h : f.Listed) : (f.addBlock name).2.Listed := by
  intro b v hv
  simpa using h (by simpa using hv)

theorem Filed.addBlock (h : f.Filed) : (f.addBlock name).2.Filed := by
  intro b v d hd hb
  simpa using h (by simpa using hd) hb

theorem Straight.addBlock (h : f.Straight) : (f.addBlock name).2.Straight := by
  intro b v d hv hd
  exact h (by simpa using hv) (by simpa using hd)

theorem WellFormed.addBlock (h : f.WellFormed) : (f.addBlock name).2.WellFormed where
  layout_eq := by
    simp [Function.addBlock, created, List.range_succ, h.layout_eq]
  entry_eq := by
    simp only [Function.addBlock, List.head?_append, h.entry_eq]
    cases f.layout.head? <;> rfl
  listed hv := h.toListed.addBlock hv
  lists hd hb := h.toFiled.addBlock hd hb
  ascending b := by simpa using h.ascending b
  inner hv hd := h.toStraight.addBlock hv hd
  params_iff := h.params_iff

end AddBlock

section AddParam

variable {name : String} {type : Scalar}

@[simp]
theorem addParam_fst : (f.addParam name type).1 = f.freshValue :=
  rfl

theorem addParam_value? :
    (f.addParam name type).2.value? v =
      if v = f.freshValue then some ⟨name, some type, .param f.params.length, none⟩
      else f.value? v := by
  simp only [value?, addParam, pushValue, Array.getElem?_push, freshValue]
  cases v
  simp

@[simp]
theorem addParam_insts : (f.addParam name type).2.insts b = f.insts b :=
  rfl

theorem Listed.addParam_terminator? (h : f.Listed) :
    (f.addParam name type).2.terminator? b = f.terminator? b := by
  refine terminator?_congr addParam_insts fun v hv => ?_
  simp [addParam_value?, h.not_fresh hv]

theorem WellFormed.addParam_terminator? (h : f.WellFormed) :
    (f.addParam name type).2.terminator? b = f.terminator? b :=
  h.toListed.addParam_terminator?

theorem Listed.addParam (h : f.Listed) : (f.addParam name type).2.Listed := by
  intro b v hv
  obtain ⟨d, hd, hb⟩ := h (addParam_insts (f := f) ▸ hv)
  exact ⟨d, by simp [addParam_value?, ne_freshValue hd, hd], hb⟩

theorem Filed.addParam (h : f.Filed) : (f.addParam name type).2.Filed := by
  intro b v d hd hb
  simp only [addParam_value?] at hd
  split at hd
  case isTrue => cases hd; simp at hb
  case isFalse => exact h hd hb

theorem Straight.addParam (h : f.Straight) (hl : f.Listed) : (f.addParam name type).2.Straight := by
  intro b v d hv hd
  simp only [addParam_value?, hl.not_fresh (List.dropLast_subset _ hv), if_false] at hd
  exact h hv hd

theorem WellFormed.addParam (h : f.WellFormed) : (f.addParam name type).2.WellFormed where
  layout_eq := h.layout_eq
  entry_eq := h.entry_eq
  listed hv := h.toListed.addParam hv
  lists hd hb := h.toFiled.addParam hd hb
  ascending := h.ascending
  inner hv hd := h.toStraight.addParam h.toListed hv hd
  params_iff v := by
    have hp : (f.addParam name type).2.params = f.params ++ [f.freshValue] := rfl
    simp only [hp, List.mem_append, List.mem_singleton, h.params_iff, addParam_value?]
    by_cases hv : v = f.freshValue
    case pos => simp [hv]
    case neg => simp [hv]

end AddParam

-- Adds an instruction at the end of a block, also of one that should take no more.
def emit (f : Function) (b : BlockId) (name : String) (type : Option Scalar) (op : Op) : Function :=
  { f with
    values := f.values.push ⟨name, type, op, some b⟩
    blocks := f.blocks.modify b.index fun d => { d with insts := d.insts ++ [f.freshValue] } }

section Emit

variable {name : String} {type : Option Scalar}

theorem append_eq : append b name type op f =
    if b ∉ f.layout then .error (.invariant (.foreignBlock b f.name)) f
    else if f.isClosed b then .error (.invariant (.closedBlock op.mnemonic (f.blockName b))) f
    else .ok f.freshValue (f.emit b name type op) := by
  by_cases hb : b ∈ f.layout <;> cases hc : f.isClosed b <;>
    simp [append, get_bind, hb, hc] <;> rfl

-- An instruction that is refused leaves nothing behind.
theorem eq_of_append_error {cause : CompileError} (h : append b name type op f = .error cause g) :
    g = f := by
  rw [append_eq] at h
  split at h
  case isTrue =>
    cases h
    rfl
  case isFalse =>
    split at h <;> cases h
    rfl

theorem append_eq_ok (h : f.WellFormed) (ho : f.Open b) :
    append b name type op f = .ok f.freshValue (f.emit b name type op) := by
  simp [append_eq, h.mem_layout_iff.mpr ho.created, isClosed_eq_false_iff.mpr ho.unclosed]

@[simp]
theorem emit_size : (f.emit b name type op).blocks.size = f.blocks.size := by
  simp [emit]

@[simp]
theorem emit_freshBlock : (f.emit b name type op).freshBlock = f.freshBlock := by
  simp [freshBlock]

@[simp]
theorem emit_layout : (f.emit b name type op).layout = f.layout :=
  rfl

@[simp]
theorem emit_entry : (f.emit b name type op).entry = f.entry :=
  rfl

@[simp]
theorem emit_result : (f.emit b name type op).result = f.result :=
  rfl

theorem emit_value? :
    (f.emit b name type op).value? v =
      if v = f.freshValue then some ⟨name, type, op, some b⟩ else f.value? v := by
  simp only [value?, emit, Array.getElem?_push, freshValue]
  cases v
  simp

@[simp]
theorem emit_value?_freshValue :
    (f.emit b name type op).value? f.freshValue = some ⟨name, type, op, some b⟩ := by
  simp [emit_value?]

theorem emit_value?_of_some (h : f.value? v = some d) :
    (f.emit b name type op).value? v = some d := by
  simp [emit_value?, ne_freshValue h, h]

theorem emit_insts_self (hc : b.index < f.blocks.size) :
    (f.emit b name type op).insts b = f.insts b ++ [f.freshValue] := by
  simp [insts, block?, emit, Array.getElem?_modify, Array.getElem?_eq_getElem hc]

theorem emit_insts_of_ne (hb : b₁ ≠ b) : (f.emit b name type op).insts b₁ = f.insts b₁ := by
  have hi : b.index ≠ b₁.index := fun hi => hb (by cases b; cases b₁; simp_all)
  simp [insts, block?, emit, Array.getElem?_modify, hi]

-- The first instruction of a block stays the first one.
theorem emit_head? (ho : f.Open b) (hv : (f.insts b₁).head? = some v) :
    ((f.emit b name type op).insts b₁).head? = some v := by
  by_cases hb : b₁ = b
  case pos => subst hb; simp [emit_insts_self ho.created, hv]
  case neg => rw [emit_insts_of_ne hb, hv]

-- An instruction of the new function was there before, or is the one that was added.
theorem mem_insts_of_emit (ho : f.Open b) (hv : v ∈ (f.emit b name type op).insts b₁) :
    v ∈ f.insts b₁ ∨ v = f.freshValue ∧ b₁ = b := by
  by_cases hb : b₁ = b
  case pos => subst hb; simpa [emit_insts_self ho.created] using hv
  case neg => exact .inl (by rwa [emit_insts_of_ne hb] at hv)

theorem emit_terminator?_self (hc : b.index < f.blocks.size) :
    (f.emit b name type op).terminator? b = if op.isTerminator then some op else none := by
  simp [terminator?_eq, emit_insts_self hc]

theorem Listed.emit_terminator?_of_ne (h : f.Listed) (hb : b₁ ≠ b) :
    (f.emit b name type op).terminator? b₁ = f.terminator? b₁ := by
  refine terminator?_congr (emit_insts_of_ne hb) fun v hv => ?_
  simp [emit_value?, h.not_fresh hv]

theorem WellFormed.emit_terminator?_of_ne (h : f.WellFormed) (hb : b₁ ≠ b) :
    (f.emit b name type op).terminator? b₁ = f.terminator? b₁ :=
  h.toListed.emit_terminator?_of_ne hb

theorem WellFormed.emit_terminator?_of_not_isTerminator
    (h : f.WellFormed) (ho : f.Open b) (ht : op.isTerminator = false) :
    (f.emit b name type op).terminator? b₁ = f.terminator? b₁ := by
  by_cases hb : b₁ = b
  case pos => simp [hb, emit_terminator?_self ho.created, ht, ho.unclosed]
  case neg => exact h.emit_terminator?_of_ne hb

theorem WellFormed.emit_open_iff (h : f.WellFormed) (ho : f.Open b) :
    (f.emit b name type op).Open b₁ ↔ f.Open b₁ ∧ (b₁ = b → op.isTerminator = false) := by
  by_cases hb : b₁ = b
  case pos =>
    subst hb
    simp only [ho, true_and, forall_const]
    constructor
    case mp => intro hu; simpa [emit_terminator?_self ho.created] using hu.unclosed
    case mpr => exact fun ht => ⟨by simpa using ho.created, by simp [emit_terminator?_self ho.created, ht]⟩
  case neg =>
    simp only [hb, false_implies, and_true]
    constructor
    case mp => exact fun hu => ⟨by simpa using hu.created, by simpa [h.emit_terminator?_of_ne hb] using hu.unclosed⟩
    case mpr => exact fun hu => ⟨by simpa using hu.created, by simpa [h.emit_terminator?_of_ne hb] using hu.unclosed⟩

theorem Listed.emit (h : f.Listed) (hc : b.index < f.blocks.size) :
    (f.emit b name type op).Listed := by
  intro b₁ v hv
  by_cases hb : b₁ = b
  case pos =>
    subst hb
    rw [emit_insts_self hc, List.mem_append, List.mem_singleton] at hv
    cases hv
    case inl hv =>
      obtain ⟨d, hd, hb⟩ := h hv
      exact ⟨d, emit_value?_of_some hd, hb⟩
    case inr hv => subst hv; exact ⟨_, emit_value?_freshValue, rfl⟩
  case neg =>
    rw [emit_insts_of_ne hb] at hv
    obtain ⟨d, hd, hb⟩ := h hv
    exact ⟨d, emit_value?_of_some hd, hb⟩

theorem Filed.emit (h : f.Filed) (hc : b.index < f.blocks.size) :
    (f.emit b name type op).Filed := by
  intro b₁ v d hd hb
  rw [emit_value?] at hd
  split at hd
  case isTrue hv =>
    cases hd
    cases hb
    simp [emit_insts_self hc, hv]
  case isFalse =>
    have hv := h hd hb
    by_cases hb : b₁ = b
    case pos => subst hb; simp [emit_insts_self hc, hv]
    case neg => rwa [emit_insts_of_ne hb]

theorem Straight.emit (h : f.Straight) (hl : f.Listed) (ho : f.Open b) :
    (f.emit b name type op).Straight := by
  intro b₁ v d hv hd
  have hv' : v ∈ f.insts b₁ := by
    by_cases hb : b₁ = b
    case pos => subst hb; simpa [emit_insts_self ho.created] using hv
    case neg => rw [emit_insts_of_ne hb] at hv; exact List.dropLast_subset _ hv
  obtain ⟨_, hd', _⟩ := hl hv'
  rw [emit_value?_of_some hd'] at hd
  cases hd
  by_cases hb : b₁ = b
  case pos => subst hb; exact h.isTerminator_eq_false ho.unclosed hv' hd'
  case neg => rw [emit_insts_of_ne hb] at hv; exact h hv hd'

theorem WellFormed.emit (h : f.WellFormed) (ho : f.Open b) :
    (f.emit b name type op).WellFormed where
  layout_eq := by simpa [created] using h.layout_eq
  entry_eq := h.entry_eq
  listed hv := h.toListed.emit ho.created hv
  lists hd hb := h.toFiled.emit ho.created hd hb
  ascending := by
    intro b₁
    by_cases hb : b₁ = b
    case pos =>
      subst hb
      rw [emit_insts_self ho.created, List.pairwise_append]
      refine ⟨h.ascending b₁, by simp, fun v hv w hw => ?_⟩
      have ⟨_, hd⟩ := h.value?_of_mem_insts hv
      simpa [List.mem_singleton.mp hw] using index_lt_of_value? hd
    case neg => rw [emit_insts_of_ne hb]; exact h.ascending b₁
  inner hv hd := h.toStraight.emit h.toListed ho hv hd
  params_iff v := by
    rw [show (f.emit b name type op).params = f.params from rfl, h.params_iff, emit_value?]
    by_cases hv : v = f.freshValue
    case pos => simp [hv, value?_freshValue]
    case neg => simp [hv]

end Emit

-- Puts another operation in the place of a block's last instruction.
def redirect (f : Function) (b : BlockId) (op : Op) : Function :=
  match (f.insts b).getLast? with
  | some v => { f with values := f.values.modify v.index fun d => { d with op := op } }
  | none => f

section Redirect

variable {old new : BlockId} {o op₁ op₂ : Op}

theorem redirect_of_getLast? (hv : (f.insts b).getLast? = some v) :
    f.redirect b o = { f with values := f.values.modify v.index fun d => { d with op := o } } := by
  simp [redirect, hv]

theorem retarget_eq_ok (ho : f.terminator? b = some op₁) (hr : op₁.retarget? old new = some op₂) :
    retarget b old new f = .ok () (f.redirect b op₂) := by
  have ⟨v, d, hv, hd, he, _⟩ := terminator?_eq_some_iff.mp ho
  subst he
  have hb := created_of_mem_insts <| List.mem_of_getLast? hv
  have hg : f.blocks[b.index]? = some f.blocks[b.index] := Array.getElem?_eq_getElem hb
  have hl : f.blocks[b.index].insts.getLast? = some v := by
    simpa [insts, block?, hg] using hv
  simp [retarget, get_bind, block?, hg, hl, hd, hr, redirect_of_getLast? hv]
  rfl

@[simp]
theorem redirect_blocks : (f.redirect b o).blocks = f.blocks := by
  unfold redirect
  split <;> rfl

@[simp]
theorem redirect_layout : (f.redirect b o).layout = f.layout := by
  unfold redirect
  split <;> rfl

@[simp]
theorem redirect_entry : (f.redirect b o).entry = f.entry := by
  unfold redirect
  split <;> rfl

@[simp]
theorem redirect_name : (f.redirect b o).name = f.name := by
  unfold redirect
  split <;> rfl

@[simp]
theorem redirect_params : (f.redirect b o).params = f.params := by
  unfold redirect
  split <;> rfl

@[simp]
theorem redirect_result : (f.redirect b o).result = f.result := by
  unfold redirect
  split <;> rfl

@[simp]
theorem redirect_insts : (f.redirect b o).insts b₁ = f.insts b₁ := by
  simp [insts, block?]

theorem redirect_value? (hv : (f.insts b).getLast? = some v) (w : ValueId) :
    (f.redirect b o).value? w =
      (f.value? w).map fun d => if w = v then { d with op := o } else d := by
  rw [redirect_of_getLast? hv]
  simp only [value?, Array.getElem?_modify]
  by_cases hw : w = v
  case pos => simp [hw]
  case neg =>
    have hi : v.index ≠ w.index := fun hi => hw (by cases v; cases w; simp_all)
    simp [hi, hw]

theorem Listed.redirect_terminator?_of_ne
    (h : f.Listed) (ho : f.terminator? b = some op₁) (hb : b₁ ≠ b) :
    (f.redirect b o).terminator? b₁ = f.terminator? b₁ := by
  have ⟨v, _, hv, _⟩ := terminator?_eq_some_iff.mp ho
  refine terminator?_congr redirect_insts fun w hw => ?_
  have hne : w ≠ v := by
    rintro rfl
    exact hb <| h.block_eq hw (List.mem_of_getLast? hv)
  rw [redirect_value? hv]
  cases f.value? w <;> simp [hne]

theorem WellFormed.redirect_terminator?_of_ne
    (h : f.WellFormed) (ho : f.terminator? b = some op₁) (hb : b₁ ≠ b) :
    (f.redirect b o).terminator? b₁ = f.terminator? b₁ :=
  h.toListed.redirect_terminator?_of_ne ho hb

theorem redirect_terminator?_self (ho : f.terminator? b = some op₁) (ht : o.isTerminator = true) :
    (f.redirect b o).terminator? b = some o := by
  have ⟨v, d, hv, hd, _⟩ := terminator?_eq_some_iff.mp ho
  refine terminator?_eq_some_iff.mpr ⟨v, { d with op := o }, by simpa using hv, ?_, rfl, ht⟩
  simp [redirect_value? hv, hd]

-- A value that is no terminator is left alone.
theorem redirect_value?_of_not_isTerminator (ho : f.terminator? b = some op₁)
    (hd : f.value? v = some d) (hn : d.op.isTerminator = false) :
    (f.redirect b o).value? v = some d := by
  have ⟨w, e, hw, he, heq, hte⟩ := terminator?_eq_some_iff.mp ho
  have hne : v ≠ w := by
    rintro rfl
    cases he.symm.trans hd
    simp [heq, hte] at hn
  simp [redirect_value? hw, hd, hne]

-- Every value keeps all but its operation, and only the block's own terminator has a new one.
theorem redirect_value?_of_some (ho : f.terminator? b = some op₁) (hd : f.value? v = some d) :
    ∃ op', (f.redirect b o).value? v = some { d with op := op' } ∧
      (op' = d.op ∨ op' = o ∧ d.op = op₁) := by
  have ⟨w, e, hw, he, heq, _⟩ := terminator?_eq_some_iff.mp ho
  by_cases hv : v = w
  case pos =>
    subst hv
    cases he.symm.trans hd
    exact ⟨o, by simp [redirect_value? hw, hd], .inr ⟨rfl, heq⟩⟩
  case neg => exact ⟨d.op, by simp [redirect_value? hw, hd, hv], .inl rfl⟩

theorem exists_of_redirect_value? (ho : f.terminator? b = some op₁)
    (hd : (f.redirect b o).value? v = some d) :
    ∃ op', f.value? v = some { d with op := op' } ∧ (op' = d.op ∨ op' = op₁ ∧ d.op = o) := by
  have ⟨w, _, hw, _⟩ := terminator?_eq_some_iff.mp ho
  have hs := redirect_value? (o := o) hw v
  cases he : f.value? v
  case none => simp [he, hd] at hs
  case some e =>
    have ⟨op', hd', hor⟩ := redirect_value?_of_some (o := o) ho he
    cases hd.symm.trans hd'
    refine ⟨e.op, rfl, ?_⟩
    cases hor
    case inl h => exact .inl h.symm
    case inr h => exact .inr ⟨h.2, h.1⟩

theorem WellFormed.redirect_open_iff
    (h : f.WellFormed) (ho : f.terminator? b = some op₁) (ht : o.isTerminator = true) :
    (f.redirect b o).Open b₁ ↔ f.Open b₁ := by
  by_cases hb : b₁ = b
  case pos =>
    subst hb
    constructor
    case mp => intro hu; simpa [redirect_terminator?_self ho ht] using hu.unclosed
    case mpr => intro hu; simpa [ho] using hu.unclosed
  case neg =>
    have he := h.redirect_terminator?_of_ne (o := o) ho hb
    constructor
    case mp => exact fun hu => ⟨by simpa using hu.created, he ▸ hu.unclosed⟩
    case mpr => exact fun hu => ⟨by simpa using hu.created, he.trans hu.unclosed⟩

theorem Listed.redirect (h : f.Listed) (ho : f.terminator? b = some op₁) :
    (f.redirect b o).Listed := by
  intro b₁ v hv
  obtain ⟨d, hd, hb⟩ := h (redirect_insts (f := f) ▸ hv)
  obtain ⟨op', hd', _⟩ := redirect_value?_of_some (o := o) ho hd
  exact ⟨_, hd', hb⟩

theorem Filed.redirect (h : f.Filed) (ho : f.terminator? b = some op₁) : (f.redirect b o).Filed := by
  intro b₁ v d hd hb
  obtain ⟨_, hd', _⟩ := exists_of_redirect_value? ho hd
  simpa using h hd' hb

theorem Straight.redirect (h : f.Straight) (ho : f.terminator? b = some op₁) :
    (f.redirect b o).Straight := by
  intro b₁ v d hv hd
  rw [redirect_insts] at hv
  obtain ⟨op', hd', hor⟩ := exists_of_redirect_value? ho hd
  have hn := h hv hd'
  cases hor
  case inl he => exact he ▸ hn
  case inr he => simp [he.1, isTerminator_of_terminator? ho] at hn

theorem WellFormed.redirect
    (h : f.WellFormed) (ho : f.terminator? b = some op₁) : (f.redirect b o).WellFormed where
  layout_eq := by simpa [created] using h.layout_eq
  entry_eq := by simpa using h.entry_eq
  listed hv := h.toListed.redirect ho hv
  lists hd hb := h.toFiled.redirect ho hd hb
  ascending b₁ := by simpa using h.ascending b₁
  inner hv hd := h.toStraight.redirect ho hv hd
  params_iff v := by
    rw [redirect_params, h.params_iff]
    constructor
    case mp =>
      rintro ⟨d, hd, hb⟩
      have ⟨_, hd', _⟩ := redirect_value?_of_some (o := o) ho hd
      exact ⟨_, hd', hb⟩
    case mpr =>
      rintro ⟨d, hd, hb⟩
      have ⟨_, hd', _⟩ := exists_of_redirect_value? ho hd
      exact ⟨_, hd', hb⟩

end Redirect

-- Nothing that `f` has is another thing in `g`.
structure Grows (f g : Function) : Prop where
  name : g.name = f.name
  value : ∀ {v d}, f.value? v = some d → g.value? v = some d
  insts : ∀ b, f.insts b <+: g.insts b

namespace Grows

variable {name : String} {type : Option Scalar}

theorem refl (f : Function) : f.Grows f :=
  ⟨rfl, id, fun _ => List.prefix_rfl⟩

theorem trans {e : Function} (h₁ : e.Grows f) (h₂ : f.Grows g) : e.Grows g :=
  ⟨h₂.name.trans h₁.name, fun hd => h₂.value (h₁.value hd), fun b => (h₁.insts b).trans (h₂.insts b)⟩

theorem addBlock : f.Grows (f.addBlock name).2 :=
  ⟨rfl, id, fun b => by simp⟩

theorem addParam {type : Scalar} : f.Grows (f.addParam name type).2 where
  name := rfl
  value hd := by rw [addParam_value?, if_neg (ne_freshValue hd), hd]
  insts _ := List.prefix_rfl

theorem emit (hc : b.index < f.blocks.size) : f.Grows (f.emit b name type op) where
  name := rfl
  value := emit_value?_of_some
  insts b₁ := by
    by_cases hb : b₁ = b
    case pos => subst hb; simp [emit_insts_self hc]
    case neg => simp [emit_insts_of_ne hb]

-- A closed block stays as it is.
theorem terminator? (h : f.Grows g) (hw : g.WellFormed) (ht : f.terminator? b = some op) :
    g.insts b = f.insts b ∧ g.terminator? b = some op := by
  have ⟨v, d, hl, hd, ho, ht⟩ := terminator?_eq_some_iff.mp ht
  have hg := h.value hd
  have ⟨more, hm⟩ := h.insts b
  have hv : v ∈ g.insts b := hm ▸ List.mem_append_left _ (List.mem_of_getLast? hl)
  refine ⟨?_, ho ▸ hw.terminator?_of_mem_insts hv hg (ho ▸ ht)⟩
  cases more
  case nil => simpa using hm.symm
  case cons =>
    have hv : v ∈ (g.insts b).dropLast := by
      rw [← hm, List.dropLast_append_of_ne_nil (by simp)]
      exact List.mem_append_left _ (List.mem_of_getLast? hl)
    have := hw.inner hv hg
    simp [ho, ht] at this

end Grows

end StackCompiler.Ssa.Function
