import StackCompiler.Proofs.Lowering.Output
import StackCompiler.Proofs.Lowering.Trace
import StackCompiler.Proofs.Ssa.History

-- Labels of blocks. The blocks of a module are numbered through, and the number of a block can be read
-- off the end of its label, whatever name stands before it. A label therefore stands for one block.

namespace StackCompiler

namespace Ssa.Function

variable {f g : Function} {b b' : BlockId} {v : ValueId} {d : ValueDef} {name : String}
variable {type : Option Scalar} {op : Op} {dom : Scope} {fs : List Function} {k k' : Nat}

-- The names of all blocks, also of those that are not in the layout any more.
def labels (f : Function) : List String :=
  f.blocks.toList.map BlockDef.name

theorem labels_addBlock : (f.addBlock name).2.labels = f.labels ++ [name] := by
  simp [labels, addBlock]

theorem labels_emit : (f.emit b name type op).labels = f.labels := by
  refine List.ext_getElem? fun n => ?_
  simp only [labels, emit, List.getElem?_map, Array.getElem?_toList, Array.getElem?_modify]
  split <;> simp [Function.comp_def]

theorem labels_append (h : append b name type op f = .ok v g) : g.labels = f.labels := by
  obtain ⟨_, _, rfl⟩ := exists_of_append h
  exact labels_emit

theorem labels_retarget {old new : BlockId} (h : retarget b old new f = .ok () g) :
    g.labels = f.labels := by
  obtain ⟨_, _, _, _, rfl⟩ := exists_of_retarget h
  simp [labels]

theorem getElem?_labels (hb : b.index < f.blocks.size) : f.labels[b.index]? = some (f.blockName b) := by
  simp [labels, blockName, block?, hb]

-- Where no name comes twice, it does not come in two functions either.
theorem eq_of_blockName_eq (h : (fs.flatMap labels).Nodup) (hf : fs[k]? = some f)
    (hg : fs[k']? = some g) (hb : b.index < f.blocks.size) (hb' : b'.index < g.blocks.size)
    (he : f.blockName b = g.blockName b') : k = k' ∧ b = b' := by
  obtain ⟨hnodup, hdisjoint⟩ := List.nodup_flatMap.mp h
  rw [List.pairwise_iff_getElem] at hdisjoint
  obtain ⟨hk, rfl⟩ := List.getElem?_eq_some_iff.mp hf
  obtain ⟨hk', rfl⟩ := List.getElem?_eq_some_iff.mp hg
  have hmem := List.mem_of_getElem? (getElem?_labels hb)
  have hmem' := he ▸ List.mem_of_getElem? (getElem?_labels hb')
  rcases Nat.lt_trichotomy k k' with hlt | rfl | hlt
  · exact (hdisjoint k k' hk hk' hlt hmem hmem').elim
  · refine ⟨rfl, ?_⟩
    have hi : b.index = b'.index := by
      refine (List.getElem?_inj ?_ (hnodup _ (List.getElem_mem hk))).mp ?_
      · simpa [labels] using hb
      · rw [getElem?_labels hb, getElem?_labels hb', he]
    cases b
    cases b'
    exact congrArg _ hi
  · exact (hdisjoint k' k hk' hk hlt hmem' hmem).elim

-- The blocks that an instruction names are not taken out.
theorem Complete.named_mem_layout (h : f.Complete dom) (hb : b ∈ f.trimmed.layout) (hv : v ∈ f.insts b)
    (hd : f.value? v = some d) (hn : b' ∈ d.op.namedBlocks) : b' ∈ f.trimmed.layout := by
  cases ho : d.op
  case phi incoming =>
    rw [ho] at hn
    exact (mem_trimmed_layout_iff h.draft).mpr ((h.draft.phis hv hd ho).reached b' hn)
  all_goals
    refine h.leads_to_layout hb hv hd ?_
    rwa [ho] at hn ⊢

end Ssa.Function

namespace Lowering.Direct

open Ssa (BlockId Function Op ValueId)

variable {s t : State} {options : Options} {globals : List GlobalSlot} {callees : List Callee}
variable {own : Callee} {body : Bytecode.Body} {f : Function}

-- The number at the end of a label.
def labelNumber (label : String) : Nat :=
  Nat.ofDigitChars 10 (label.toList.reverse.takeWhile Char.isDigit).reverse 0

-- No name can reach into the number, because the letter before it is not a digit.
theorem labelNumber_eq (name : String) (number : Nat) :
    labelNumber (name ++ "_block" ++ toString number) = number := by
  have hdigits : ∀ c ∈ (Nat.toDigits 10 number).reverse, c.isDigit = true := fun c hc =>
    Nat.isDigit_of_mem_toDigits (by decide) (by decide) (List.mem_reverse.mp hc)
  have hblock : (name ++ "_block" ++ toString number).toList.reverse =
      (Nat.toDigits 10 number).reverse ++ 'k' :: ("_bloc".toList.reverse ++ name.toList.reverse) := by
    simp
  rw [labelNumber, hblock, List.takeWhile_append_of_pos hdigits, List.takeWhile_cons_of_neg (by decide),
    List.append_nil, List.reverse_reverse, Nat.ofDigitChars_ten_toDigits]

-- The labels of the function so far have the numbers that follow `first`.
structure State.Numbers (first : Nat) (s : State) : Prop where
  le : first ≤ s.blockCount
  labels : s.function.labels.map labelNumber = List.range' (first + 1) (s.blockCount - first)

def State.KeepsNumbers (s t : State) : Prop :=
  ∀ first, s.Numbers first → t.Numbers first

theorem State.keepsNumbers_of_labels_eq (hl : t.function.labels = s.function.labels)
    (hb : t.blockCount = s.blockCount) : s.KeepsNumbers t :=
  fun _ h => ⟨hb ▸ h.le, by rw [hl, hb]; exact h.labels⟩

theorem State.keepsNumbers_grow : s.KeepsNumbers s.grow := by
  intro first h
  have hle := h.le
  refine ⟨Nat.le_succ_of_le hle, ?_⟩
  simp only [grow, Ssa.Function.labels_addBlock, List.map_append, h.labels, List.map_cons, List.map_nil,
    labelNumber_eq]
  have hcount : s.blockCount + 1 - first = s.blockCount - first + 1 := by omega
  rw [hcount, List.range'_concat]
  simp
  omega

instance : Throughout State.KeepsNumbers State.Whatever where
  refl _ h := h
  trans h₁ h₂ first h := h₂ first (h₁ first h)
  stop := trivial
  fail _ _ := trivial
  quiet h := State.keepsNumbers_of_labels_eq (congrArg _ h.function) h.blockCount
  newBlock := State.keepsNumbers_grow
  append _ h := State.keepsNumbers_of_labels_eq (Ssa.Function.labels_append h) rfl
  retarget h := State.keepsNumbers_of_labels_eq (Ssa.Function.labels_retarget h) rfl
  phi _ h := State.keepsNumbers_of_labels_eq (Ssa.Function.labels_append h) rfl
  announced := trivial

theorem Lowered.numbers_last (l : Lowered globals callees own body) :
    l.last.Numbers l.origin.blockCount := by
  have hready : (l.origin.fresh own.name l.result).KeepsNumbers l.ready :=
    l.relates_ready (E := State.Whatever) fun _ _ _ => State.keepsNumbers_of_labels_eq rfl rfl
  have hended : l.ready.KeepsNumbers l.ended :=
    (lowerCode_relates (E := State.Whatever) fun _ _ =>
      State.keepsNumbers_of_labels_eq rfl rfl).of_ok l.lowerCode_eq
  have hlast : l.ended.KeepsNumbers l.last :=
    (closeBody_relates (E := State.Whatever)).of_ok l.closeBody_eq
  have hfresh : (l.origin.fresh own.name l.result).Numbers l.origin.blockCount :=
    ⟨Nat.le_refl _, by simp [State.fresh, Function.labels, Function.empty]⟩
  exact hlast _ (hended _ (hready _ hfresh))

-- A function takes the numbers that follow those of the functions before it.
theorem labels_of_lowerFunction (h : lowerFunction options globals callees own body s = .ok f t) :
    s.blockCount ≤ t.blockCount ∧
    f.labels.map labelNumber = List.range' (s.blockCount + 1) (t.blockCount - s.blockCount) := by
  obtain ⟨l, ho, rfl, hb, _⟩ := exists_of_lowerFunction_counts h
  have hs : l.origin.blockCount = s.blockCount := by rw [ho]
  obtain ⟨hle, hl⟩ := l.numbers_last
  rw [hb, ← hs]
  exact ⟨hle, hl⟩

theorem labels_of_lowerBodies {bodies : List (Callee × Bytecode.Body)} {functions : List Function}
    (h : lowerBodies options globals callees bodies s = .ok functions t) :
    s.blockCount ≤ t.blockCount ∧ (functions.flatMap Function.labels).map labelNumber =
      List.range' (s.blockCount + 1) (t.blockCount - s.blockCount) := by
  induction bodies generalizing s functions
  case nil =>
    cases h
    simp
  case cons x bodies hi =>
    obtain ⟨f, u, rest, hf, hrest, rfl⟩ := exists_of_lowerBodies_cons h
    obtain ⟨hle, hl⟩ := labels_of_lowerFunction hf
    obtain ⟨hle', hl'⟩ := hi hrest
    refine ⟨hle.trans hle', ?_⟩
    have hstart : u.blockCount + 1 = s.blockCount + 1 + (u.blockCount - s.blockCount) := by omega
    have hlength : t.blockCount - s.blockCount =
      (u.blockCount - s.blockCount) + (t.blockCount - u.blockCount) := by omega
    rw [List.flatMap_cons, List.map_append, hl, hl', hlength, hstart, List.range'_append_1]

end Lowering.Direct

-- Block `b` of the function at place `k` stands in the text under a label.
def Ssa.Module.Denotes (module : Ssa.Module) (label : String) (k : Nat) (b : Ssa.BlockId) : Prop :=
  ∃ f, module.functions[k]? = some f ∧ b ∈ f.layout ∧ f.blockName b = label

namespace Bytecode.Module

open Lowering (Callee Options)
open Lowering.Direct
open Ssa (BlockId Function)

variable {m : Module} {options : Options} {j j' : Journal} {module : Ssa.Module} {k : Nat}
variable {f : Function} {b : BlockId}

theorem created_of_mem_layout (h : m.lower options j = .ok module j')
    (hf : module.functions[k]? = some f) (hb : b ∈ f.layout) : b.index < f.blocks.size := by
  obtain ⟨g, _, hc, rfl⟩ := finished_of_mem h (List.mem_of_getElem? hf)
  have hlt : b.index < g.blocks.size :=
    ((Function.mem_trimmed_layout_iff hc.draft).mp hb).created hc.draft.wf hc.draft.linked
  exact hlt

theorem nodup_labels (h : m.lower options j = .ok module j') :
    (module.functions.flatMap Function.labels).Nodup := by
  obtain ⟨_, _, _, _, _, _, hbodies, _⟩ := exists_of_lower h
  refine List.Nodup.of_map labelNumber ?_
  rw [(labels_of_lowerBodies hbodies).2]
  exact List.nodup_range'

-- All blocks of a module have names of their own. A label in the text of an instruction stands for the
-- block that the instruction names and for no other block of the module, whatever the functions are
-- called.
theorem lower_labels_unique (h : m.lower options j = .ok module j') :
    (module.functions.flatMap Function.labels).Nodup ∧
    ∀ k f, module.functions[k]? = some f → ∀ b ∈ f.layout, ∀ v d, (v, d) ∈ f.instructions b →
      ∀ t ∈ d.op.namedBlocks, module.Denotes (f.blockName t) k t ∧
        ∀ k' t', module.Denotes (f.blockName t) k' t' → k' = k ∧ t' = t := by
  have hnodup := nodup_labels h
  refine ⟨hnodup, fun k f hf b hb v d hd t ht => ?_⟩
  have hmem : t ∈ f.layout := by
    obtain ⟨g, dom, hc, rfl⟩ := finished_of_mem h (List.mem_of_getElem? hf)
    obtain ⟨hv, hd⟩ := Function.mem_instructions_iff.mp hd
    exact hc.named_mem_layout hb hv hd ht
  refine ⟨⟨f, hf, hmem, rfl⟩, ?_⟩
  rintro k' t' ⟨g, hg, ht', he⟩
  exact Function.eq_of_blockName_eq hnodup hg hf (created_of_mem_layout h hg ht')
    (created_of_mem_layout h hf hmem) he

-- Two functions of one name, and a third that is called like a block of the first one.
def namesakes : Module where
  types := [⟨[], [.i32]⟩]
  bodies := List.replicate 3 ⟨0, [], [.block (.value .i32), .const (.i32 1), .end_, .end_]⟩
  exports := [⟨"f", .function, 0⟩, ⟨"f", .function, 1⟩, ⟨"f_block1", .function, 2⟩]

theorem exists_namesakes : ∃ (module : Ssa.Module) (j' : Journal) (f : Function),
    namesakes.lower {} #[] = .ok module j' ∧
    module.functions.map Function.name = ["f", "f", "f_block1"] ∧ module.functions[2]? = some f ∧
    ∃ b ∈ f.layout, ∃ v d, (v, d) ∈ f.instructions b ∧ d.op.isPhi = true ∧ d.op.namedBlocks ≠ [] := by
  have h : (match namesakes.lower {} #[] with
      | .ok module _ =>
        (module.functions.map Function.name == ["f", "f", "f_block1"]) &&
          module.functions[2]?.any fun f => f.layout.any fun b => (f.instructions b).any fun i =>
            i.2.op.isPhi && !i.2.op.namedBlocks.isEmpty
      | .error .. => false) = true := by decide +kernel
  split at h
  case h_2 => cases h
  case h_1 module j' hx =>
    obtain ⟨hn, h⟩ := Bool.and_eq_true _ _ |>.mp h
    obtain ⟨f, hf, h⟩ := Option.any_eq_true _ _ |>.mp h
    obtain ⟨b, hb, h⟩ := List.any_eq_true.mp h
    obtain ⟨⟨v, d⟩, hd, h⟩ := List.any_eq_true.mp h
    obtain ⟨hp, h⟩ := Bool.and_eq_true _ _ |>.mp h
    exact ⟨module, j', f, hx, by simpa using hn, hf, b, hb, v, d, hd, hp, by simpa using h⟩

theorem lower_labels_unique_namesakes : ∃ (module : Ssa.Module) (j' : Journal) (f : Function),
    namesakes.lower {} #[] = .ok module j' ∧
    module.functions.map Function.name = ["f", "f", "f_block1"] ∧
    (module.functions.flatMap Function.labels).Nodup ∧ module.functions[2]? = some f ∧
    ∃ b ∈ f.layout, ∃ v d, (v, d) ∈ f.instructions b ∧ d.op.isPhi = true ∧
      ∃ t ∈ d.op.namedBlocks, module.Denotes (f.blockName t) 2 t ∧
        ∀ k' t', module.Denotes (f.blockName t) k' t' → k' = 2 ∧ t' = t := by
  obtain ⟨module, j', f, h, hn, hf, b, hb, v, d, hd, hp, hne⟩ := exists_namesakes
  obtain ⟨t, ht⟩ := List.exists_mem_of_ne_nil _ hne
  obtain ⟨hnodup, hdenotes⟩ := lower_labels_unique h
  exact ⟨module, j', f, h, hn, hnodup, hf, b, hb, v, d, hd, hp, t, ht,
    hdenotes 2 f hf b hb v d hd t ht⟩

end Bytecode.Module

end StackCompiler
