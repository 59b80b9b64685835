import StackCompiler.Proofs.Ssa.Finish
import StackCompiler.Proofs.Ssa.Seal
import Mathlib.Data.List.Forall2
import Mathlib.Logic.Relator
import Mathlib.Order.Defs.PartialOrder

-- Two functions whose live code is the same up to the numbers of values and blocks, and how they
-- stay so while they are built: the same instruction is added to both, or dead code to one of them.

namespace StackCompiler.Ssa

-- Which values and blocks of one function stand for which ones of another.
@[ext]
structure Renaming where
  value : ValueId → ValueId → Prop
  block : BlockId → BlockId → Prop

namespace Renaming

instance : Preorder Renaming where
  le ρ σ := (∀ v w, ρ.value v w → σ.value v w) ∧ ∀ b c, ρ.block b c → σ.block b c
  le_refl _ := ⟨fun _ _ h => h, fun _ _ h => h⟩
  le_trans _ _ _ h₁ h₂ := ⟨fun v w h => h₂.1 v w (h₁.1 v w h), fun b c h => h₂.2 b c (h₁.2 b c h)⟩

-- The renaming from the second function to the first one.
def flip (ρ : Renaming) : Renaming where
  value v w := ρ.value w v
  block b c := ρ.block c b

def addValue (ρ : Renaming) (v w : ValueId) : Renaming :=
  { ρ with value := fun a b => ρ.value a b ∨ a = v ∧ b = w }

def addBlock (ρ : Renaming) (b c : BlockId) : Renaming :=
  { ρ with block := fun p q => ρ.block p q ∨ p = b ∧ q = c }

theorem addValue_self (ρ : Renaming) (v w : ValueId) : (ρ.addValue v w).value v w :=
  .inr ⟨rfl, rfl⟩

theorem addBlock_self (ρ : Renaming) (b c : BlockId) : (ρ.addBlock b c).block b c :=
  .inr ⟨rfl, rfl⟩

theorem le_addValue (ρ : Renaming) (v w : ValueId) : ρ ≤ ρ.addValue v w :=
  ⟨fun _ _ => .inl, fun _ _ h => h⟩

theorem le_addBlock (ρ : Renaming) (b c : BlockId) : ρ ≤ ρ.addBlock b c :=
  ⟨fun _ _ h => h, fun _ _ => .inl⟩

end Renaming

-- The same operation on operands and targets that stand for each other.
inductive Op.Renamed (ρ : Renaming) : Op → Op → Prop
  | param (index : Nat) : Renamed ρ (.param index) (.param index)
  | const (value : Constant) : Renamed ρ (.const value) (.const value)
  | alloc (size align : Nat) : Renamed ρ (.alloc size align) (.alloc size align)
  | globalAddr (id : GlobalId) : Renamed ρ (.globalAddr id) (.globalAddr id)
  | binary {l l' r r' : ValueId} (op : BinaryOp) (hl : ρ.value l l') (hr : ρ.value r r') :
    Renamed ρ (.binary op l r) (.binary op l' r')
  | neg {v w : ValueId} (h : ρ.value v w) : Renamed ρ (.neg v) (.neg w)
  | cast {v w : ValueId} (h : ρ.value v w) : Renamed ρ (.cast v) (.cast w)
  | load {v w : ValueId} (h : ρ.value v w) : Renamed ρ (.load v) (.load w)
  | store {v w a a' : ValueId} (hv : ρ.value v w) (ha : ρ.value a a') :
    Renamed ρ (.store v a) (.store w a')
  | phi {l l' : List (BlockId × ValueId)}
    (h : List.Forall₂ (fun i j => ρ.block i.1 j.1 ∧ ρ.value i.2 j.2) l l') :
    Renamed ρ (.phi l) (.phi l')
  | call {args args' : List ValueId} (callee : String) (result : Option Scalar)
    (h : List.Forall₂ ρ.value args args') :
    Renamed ρ (.call ⟨callee, args, result⟩) (.call ⟨callee, args', result⟩)
  | jump {b c : BlockId} (h : ρ.block b c) : Renamed ρ (.jump b) (.jump c)
  | branch {l l' r r' : ValueId} {b c b' c' : BlockId} (cond : Comparison) (hl : ρ.value l l')
    (hr : ρ.value r r') (hy : ρ.block b c) (hn : ρ.block b' c') :
    Renamed ρ (.branch l cond r b b') (.branch l' cond r' c c')
  | ret {v w : ValueId} (h : ρ.value v w) : Renamed ρ (.ret v) (.ret w)
  | exit : Renamed ρ .exit .exit

-- The same instruction, with the same name and type, in blocks that stand for each other.
structure ValueDef.Renamed (ρ : Renaming) (d e : ValueDef) : Prop where
  name : e.name = d.name
  type : e.type = d.type
  op : d.op.Renamed ρ e.op
  block : Option.Rel ρ.block d.block e.block

variable {ρ σ : Renaming} {v w : ValueId} {b c p q : BlockId} {d e : ValueDef}

section Related

variable {α β : Type} {R : α → β → Prop}

theorem rel_of_some {a : α} {x : Option α} {y : Option β} (h : Option.Rel R x y) (hx : x = some a) :
    ∃ b, y = some b ∧ R a b := by
  subst hx
  cases h
  case some h => exact ⟨_, rfl, h⟩

theorem rel_flip {x : Option α} {y : Option β} (h : Option.Rel R x y) :
    Option.Rel (fun b a => R a b) y x := by
  cases h
  case none => exact .none
  case some h => exact .some h

theorem rel_mono {S : α → β → Prop} {x : Option α} {y : Option β} (hi : ∀ a b, R a b → S a b)
    (h : Option.Rel R x y) : Option.Rel S x y := by
  cases h
  case none => exact .none
  case some h => exact .some (hi _ _ h)

theorem exists_of_forall₂ {l : List α} {l' : List β} {a : α} (h : List.Forall₂ R l l') (ha : a ∈ l) :
    ∃ b ∈ l', R a b := by
  obtain ⟨i, hi, rfl⟩ := List.mem_iff_getElem.mp ha
  have hi' : i < l'.length := h.length_eq ▸ hi
  exact ⟨_, List.getElem_mem hi', h.get hi hi'⟩

theorem forall₂_getLast? {l : List α} {l' : List β} (h : List.Forall₂ R l l') :
    Option.Rel R l.getLast? l'.getLast? := by
  have hr := List.forall₂_reverse_iff.mpr h
  rw [← List.head?_reverse, ← List.head?_reverse]
  generalize l.reverse = r at hr ⊢
  generalize l'.reverse = r' at hr ⊢
  cases hr
  case nil => exact .none
  case cons h _ => exact .some h

-- Ascending lists whose members stand for each other, in the same order.
theorem forall₂_of_ascending {R : BlockId → BlockId → Prop} {l l' : List BlockId}
    (hR : ∀ {b c b' c'}, R b c → R b' c' → (b.index < b'.index ↔ c.index < c'.index))
    (hl : l.Pairwise (·.index < ·.index)) (hl' : l'.Pairwise (·.index < ·.index))
    (h : ∀ b ∈ l, ∃ c ∈ l', R b c) (h' : ∀ c ∈ l', ∃ b ∈ l, R b c) : List.Forall₂ R l l' := by
  induction l generalizing l'
  case nil =>
    cases l'
    case nil => exact .nil
    case cons c l' => simpa using h' c
  case cons b l hi =>
    cases l'
    case nil => simpa using h b
    case cons c l' =>
      rw [List.pairwise_cons] at hl hl'
      -- The first ones stand for each other, as anything else would be out of order.
      have hbc : R b c := by
        obtain ⟨c₁, hc₁, hb⟩ := h b (.head _)
        obtain ⟨b₁, hb₁, hc⟩ := h' c (.head _)
        rcases List.mem_cons.mp hc₁ with rfl | hc₁
        · exact hb
        rcases List.mem_cons.mp hb₁ with rfl | hb₁
        · exact hc
        have hlt := (hR hc hb).mpr (hl'.1 c₁ hc₁)
        exact absurd hlt (Nat.lt_asymm (hl.1 b₁ hb₁))
      refine .cons hbc (hi hl.2 hl'.2 (fun b₁ hb₁ => ?_) fun c₁ hc₁ => ?_)
      · obtain ⟨c₁, hc₁, hb⟩ := h b₁ (.tail _ hb₁)
        rcases List.mem_cons.mp hc₁ with rfl | hc₁
        · exact absurd ((hR hbc hb).mp (hl.1 b₁ hb₁)) (Nat.lt_irrefl _)
        · exact ⟨c₁, hc₁, hb⟩
      · obtain ⟨b₁, hb₁, hc⟩ := h' c₁ (.tail _ hc₁)
        rcases List.mem_cons.mp hb₁ with rfl | hb₁
        · exact absurd ((hR hbc hc).mpr (hl'.1 c₁ hc₁)) (Nat.lt_irrefl _)
        · exact ⟨b₁, hb₁, hc⟩

end Related

namespace Op.Renamed

variable {op op' : Op}

theorem mono (hle : ρ ≤ σ) (h : op.Renamed ρ op') : op.Renamed σ op' := by
  cases h
  case param => exact .param _
  case const => exact .const _
  case alloc => exact .alloc ..
  case globalAddr => exact .globalAddr _
  case binary hl hr => exact .binary _ (hle.1 _ _ hl) (hle.1 _ _ hr)
  case neg h => exact .neg (hle.1 _ _ h)
  case cast h => exact .cast (hle.1 _ _ h)
  case load h => exact .load (hle.1 _ _ h)
  case store hv ha => exact .store (hle.1 _ _ hv) (hle.1 _ _ ha)
  case phi h => exact .phi (h.imp fun _ _ h => ⟨hle.2 _ _ h.1, hle.1 _ _ h.2⟩)
  case call h => exact .call _ _ (h.imp hle.1)
  case jump h => exact .jump (hle.2 _ _ h)
  case branch hl hr hy hn =>
    exact .branch _ (hle.1 _ _ hl) (hle.1 _ _ hr) (hle.2 _ _ hy) (hle.2 _ _ hn)
  case ret h => exact .ret (hle.1 _ _ h)
  case exit => exact .exit

theorem flip (h : op.Renamed ρ op') : op'.Renamed ρ.flip op := by
  cases h
  case param => exact .param _
  case const => exact .const _
  case alloc => exact .alloc ..
  case globalAddr => exact .globalAddr _
  case binary hl hr => exact .binary _ hl hr
  case neg h => exact .neg h
  case cast h => exact .cast h
  case load h => exact .load h
  case store hv ha => exact .store hv ha
  case phi h => exact .phi h.flip
  case call h => exact .call _ _ h.flip
  case jump h => exact .jump h
  case branch hl hr hy hn => exact .branch _ hl hr hy hn
  case ret h => exact .ret h
  case exit => exact .exit

theorem isTerminator (h : op.Renamed ρ op') : op'.isTerminator = op.isTerminator := by
  cases h <;> rfl

theorem successors (h : op.Renamed ρ op') : List.Forall₂ ρ.block op.successors op'.successors := by
  cases h
  case jump h => exact .cons h .nil
  case branch hy hn => exact .cons hy (.cons hn .nil)
  all_goals exact .nil

-- If blocks stand for each other one by one, then the same edge is moved.
theorem retarget? {old old' new new' : BlockId} {o o' : Op}
    (hu : ∀ {b c b' c'}, ρ.block b c → ρ.block b' c' → (b = b' ↔ c = c'))
    (hold : ρ.block old old') (hnew : ρ.block new new') (h : op.Renamed ρ op')
    (ho : op.retarget? old new = some o) (ho' : op'.retarget? old' new' = some o') :
    o.Renamed ρ o' := by
  cases h
  case jump b c h =>
    simp only [Op.retarget?, Option.ite_none_right_eq_some, Option.some.injEq] at ho ho'
    rw [← ho.2, ← ho'.2]
    exact .jump hnew
  case branch _ _ _ _ yes yes' no no' cond hl hr hy hn =>
    simp only [Op.retarget?, hu hy hold, hu hn hold] at ho ho'
    by_cases hyes : yes' = old'
    case pos =>
      simp only [if_pos hyes, Option.some.injEq] at ho ho'
      rw [← ho, ← ho']
      exact .branch cond hl hr hnew hn
    case neg =>
      simp only [if_neg hyes, Option.ite_none_right_eq_some, Option.some.injEq] at ho ho'
      rw [← ho.2, ← ho'.2]
      exact .branch cond hl hr hy hnew
  all_goals simp [Op.retarget?] at ho

end Op.Renamed

theorem ValueDef.Renamed.mono (hle : ρ ≤ σ) (h : d.Renamed ρ e) : d.Renamed σ e where
  name := h.name
  type := h.type
  op := h.op.mono hle
  block := rel_mono hle.2 h.block

theorem ValueDef.Renamed.flip (h : d.Renamed ρ e) : e.Renamed ρ.flip d where
  name := h.name.symm
  type := h.type.symm
  op := h.op.flip
  block := rel_flip h.block

namespace Function

variable {f g f' g' : Function} {op op' : Op} {name : String} {type : Option Scalar}

theorem WellFormed.pairwise_layout (hf : f.WellFormed) :
    f.layout.Pairwise (·.index < ·.index) := by
  rw [hf.layout_eq, created, List.pairwise_map]
  exact List.pairwise_lt_range

theorem Reaches.entry_isSome (h : f.Reaches b) : f.entry.isSome := by
  induction h
  case entry he => simp [he]
  case step hi => exact hi

-- The functions are the same but for the numbers of values and blocks and the names of blocks. The
-- code of a block is compared with that of the block that stands for it, in the order of the layout.
structure Renamed (ρ : Renaming) (f g : Function) : Prop where
  value_unique : Relator.BiUnique ρ.value
  block_unique : Relator.BiUnique ρ.block
  name : g.name = f.name
  result : g.result = f.result
  entry : Option.Rel ρ.block f.entry g.entry
  params : List.Forall₂ ρ.value f.params g.params
  layout : List.Forall₂ ρ.block f.layout g.layout
  value : ∀ {v w}, ρ.value v w →
    ∃ d e, f.value? v = some d ∧ g.value? w = some e ∧ d.Renamed ρ e
  code : ∀ {b c}, ρ.block b c → b ∈ f.layout →
    List.Forall₂ (fun i j => ρ.value i.1 j.1 ∧ i.2.Renamed ρ j.2) (f.instructions b)
      (g.instructions c)

-- The definition stands in live code, or is that of a parameter.
def Alive (f : Function) (d : ValueDef) : Prop :=
  match d.block with
  | some b => f.Reaches b
  | none => d.op.isTerminator = false

theorem Alive.mono (hr : ∀ {b}, f.Reaches b → g.Reaches b) (h : f.Alive d) : g.Alive d := by
  unfold Alive at h ⊢
  split at h
  case h_1 b hb => simpa only [hb] using hr h
  case h_2 hb => simpa only [hb] using h

theorem Alive.exists_block (h : f.Alive d) (ht : d.op.isTerminator = true) :
    ∃ b, d.block = some b ∧ f.Reaches b := by
  unfold Alive at h
  split at h
  case h_1 b hb => exact ⟨b, hb, h⟩
  case h_2 => simp [ht] at h

-- A closed block can change its terminator only.
theorem value?_of_terminator? (hf : f.WellFormed) (hk : f.Keeps g) (hi : g.insts b = f.insts b)
    (hv : v ∈ f.insts b) (hd : f.value? v = some d) (ht : d.op.isTerminator = true)
    (ho : g.terminator? b = some op) : g.value? v = some { d with op := op } := by
  obtain ⟨op', hg⟩ := hk.value hd
  obtain ⟨w, e, hw, he, rfl, _⟩ := terminator?_eq_some_iff.mp ho
  rw [hi, hf.toStraight.getLast?_of_mem_insts hv hd ht] at hw
  cases hw
  cases hg.symm.trans he
  exact hg

-- The live code of `f` is that of `g`, and numbers are in the same order.
structure Matches (ρ : Renaming) (f g : Function) : Prop where
  ascending : ∀ {v w v' w'}, ρ.value v w → ρ.value v' w' → (v.index < v'.index ↔ w.index < w'.index)
  ordered : ∀ {b c b' c'}, ρ.block b c → ρ.block b' c' → (b.index < b'.index ↔ c.index < c'.index)
  created : ∀ {b c}, ρ.block b c → b.index < f.blocks.size ∧ c.index < g.blocks.size
  entry : Option.Rel ρ.block f.entry g.entry
  value : ∀ {v w}, ρ.value v w →
    ∃ d e, f.value? v = some d ∧ g.value? w = some e ∧ d.Renamed ρ e ∧ f.Alive d
  insts : ∀ {b c}, ρ.block b c → f.Reaches b → List.Forall₂ ρ.value (f.insts b) (g.insts c)

-- Nothing but dead code was added to `f`.
structure Spares (f g : Function) : Prop where
  entry : g.entry = f.entry
  size : f.blocks.size ≤ g.blocks.size
  reaches_iff : ∀ {b}, g.Reaches b ↔ f.Reaches b
  value : ∀ {v d}, f.value? v = some d → f.Alive d → g.value? v = some d
  insts : ∀ {b}, f.Reaches b → g.insts b = f.insts b

namespace Matches

section Unique

variable (h : Matches ρ f g)
include h

theorem block_eq_iff {b' c' : BlockId} (hb : ρ.block b c) (hb' : ρ.block b' c') :
    b = b' ↔ c = c' := by
  have h₁ := h.ordered hb hb'
  have h₂ := h.ordered hb' hb
  have hext (x y : BlockId) : x = y ↔ x.index = y.index := by cases x; cases y; simp
  rw [hext, hext]
  omega

theorem value_eq_iff {v' w' : ValueId} (hv : ρ.value v w) (hv' : ρ.value v' w') :
    v = v' ↔ w = w' := by
  have h₁ := h.ascending hv hv'
  have h₂ := h.ascending hv' hv
  have hext (x y : ValueId) : x = y ↔ x.index = y.index := by cases x; cases y; simp
  rw [hext, hext]
  omega

theorem hasType_iff {ty : Scalar} (hv : ρ.value v w) : f.HasType v ty ↔ g.HasType w ty := by
  obtain ⟨d, e, hd, he, hr, _⟩ := h.value hv
  simp [HasType, hd, he, hr.type]

-- Blocks that stand for each other end in the same way.
theorem terminator? (hb : ρ.block b c) (hr : f.Reaches b) :
    Option.Rel (Op.Renamed ρ) (f.terminator? b) (g.terminator? c) := by
  rw [terminator?_eq, terminator?_eq]
  have hl := forall₂_getLast? (h.insts hb hr)
  generalize (f.insts b).getLast? = x at hl ⊢
  generalize (g.insts c).getLast? = y at hl ⊢
  cases hl
  case none => exact .none
  case some v w hv =>
    obtain ⟨d, e, hd, he, hde, _⟩ := h.value hv
    simp only [Option.bind_some, hd, he, hde.op.isTerminator]
    split
    case isTrue => exact .some hde.op
    case isFalse => exact .none

theorem successors (hb : ρ.block b c) (hr : f.Reaches b) :
    List.Forall₂ ρ.block (f.successors b) (g.successors c) := by
  have ht := h.terminator? hb hr
  unfold Function.successors
  generalize f.terminator? b = x at ht ⊢
  generalize g.terminator? c = y at ht ⊢
  cases ht
  case none => exact .nil
  case some ho => exact ho.successors

theorem exists_of_reaches (hr : f.Reaches b) : ∃ c, ρ.block b c ∧ g.Reaches c := by
  induction hr
  case entry b he =>
    obtain ⟨c, hc, hb⟩ := rel_of_some h.entry he
    exact ⟨c, hb, .entry hc⟩
  case step p b hp hb hi =>
    obtain ⟨q, hpq, hq⟩ := hi
    obtain ⟨c, hc, hbc⟩ := exists_of_forall₂ (h.successors hpq hp) hb
    exact ⟨c, hbc, .step hq hc⟩

theorem exists_of_reaches' (hr : g.Reaches c) : ∃ b, ρ.block b c ∧ f.Reaches b := by
  induction hr
  case entry c he =>
    obtain ⟨b, hb, hc⟩ := rel_of_some (rel_flip h.entry) he
    exact ⟨b, hc, .entry hb⟩
  case step q c hq hc hi =>
    obtain ⟨p, hpq, hp⟩ := hi
    obtain ⟨b, hb, hbc⟩ := exists_of_forall₂ (h.successors hpq hp).flip hc
    exact ⟨b, hbc, .step hp hb⟩

theorem reaches_iff (hb : ρ.block b c) : f.Reaches b ↔ g.Reaches c := by
  constructor
  case mp =>
    intro hr
    obtain ⟨c', hb', hr'⟩ := h.exists_of_reaches hr
    rwa [(h.block_eq_iff hb hb').mp rfl]
  case mpr =>
    intro hr
    obtain ⟨b', hb', hr'⟩ := h.exists_of_reaches' hr
    rwa [(h.block_eq_iff hb hb').mpr rfl]

theorem alive (hr : d.Renamed ρ e) (ha : f.Alive d) : g.Alive e := by
  have hb := hr.block
  unfold Alive at ha ⊢
  generalize d.block = x at hb ha
  generalize e.block = y at hb ⊢
  cases hb
  case none => exact hr.op.isTerminator.trans ha
  case some hb => exact (h.reaches_iff hb).mp ha

theorem flip : Matches ρ.flip g f where
  ascending hv hv' := (h.ascending hv hv').symm
  ordered hb hb' := (h.ordered hb hb').symm
  created hb := (h.created hb).symm
  entry := rel_flip h.entry
  value hv := by
    obtain ⟨d, e, hd, he, hr, ha⟩ := h.value hv
    exact ⟨e, d, he, hd, hr.flip, h.alive hr ha⟩
  insts hb hr := (h.insts hb ((h.reaches_iff hb).mpr hr)).flip

end Unique

section Build

variable (h : Matches ρ f g)
include h

theorem index_lt (hv : ρ.value v w) : v.index < f.values.size ∧ w.index < g.values.size := by
  obtain ⟨_, _, hd, he, _⟩ := h.value hv
  exact ⟨index_lt_of_value? hd, index_lt_of_value? he⟩

-- The next numbers are above all others.
theorem ascending_fresh {v' w' : ValueId} (hv : (ρ.addValue f.freshValue g.freshValue).value v w)
    (hv' : (ρ.addValue f.freshValue g.freshValue).value v' w') :
    v.index < v'.index ↔ w.index < w'.index := by
  rcases hv with hv | ⟨rfl, rfl⟩ <;> rcases hv' with hv' | ⟨rfl, rfl⟩
  · exact h.ascending hv hv'
  · exact iff_of_true (h.index_lt hv).1 (h.index_lt hv).2
  · have hlt := h.index_lt hv'
    exact iff_of_false (Nat.lt_asymm hlt.1) (Nat.lt_asymm hlt.2)
  · exact iff_of_false (Nat.lt_irrefl _) (Nat.lt_irrefl _)

theorem ordered_fresh {b' c' : BlockId} (hb : (ρ.addBlock f.freshBlock g.freshBlock).block b c)
    (hb' : (ρ.addBlock f.freshBlock g.freshBlock).block b' c') :
    b.index < b'.index ↔ c.index < c'.index := by
  rcases hb with hb | ⟨rfl, rfl⟩ <;> rcases hb' with hb' | ⟨rfl, rfl⟩
  · exact h.ordered hb hb'
  · exact iff_of_true (h.created hb).1 (h.created hb).2
  · have hlt := h.created hb'
    exact iff_of_false (Nat.lt_asymm hlt.1) (Nat.lt_asymm hlt.2)
  · exact iff_of_false (Nat.lt_irrefl _) (Nat.lt_irrefl _)

theorem addBlock {name' : String} (he : f.entry.isSome) (he' : g.entry.isSome) :
    Matches (ρ.addBlock f.freshBlock g.freshBlock) (f.addBlock name).2 (g.addBlock name').2 where
  ascending := h.ascending
  ordered := h.ordered_fresh
  created := by
    rintro b c (hb | ⟨rfl, rfl⟩)
    · obtain ⟨hf, hg⟩ := h.created hb
      simp only [addBlock_size]
      omega
    · simp
  entry := by
    rw [addBlock_entry he, addBlock_entry he']
    exact rel_mono (fun _ _ => .inl) h.entry
  value hv := by
    obtain ⟨d, e, hd, he, hr, ha⟩ := h.value hv
    exact ⟨d, e, hd, he, hr.mono (ρ.le_addBlock ..), ha.mono (addBlock_reaches_iff ‹_›).mpr⟩
  insts := by
    intro b c hb hr
    rw [addBlock_reaches_iff he] at hr
    simp only [addBlock_insts]
    rcases hb with hb | ⟨rfl, rfl⟩
    · exact h.insts hb hr
    · rw [insts_freshBlock, insts_freshBlock]
      exact .nil

theorem addParam {ty : Scalar} (hf : f.WellFormed) (hl : f.params.length = g.params.length) :
    Matches (ρ.addValue f.freshValue g.freshValue) (f.addParam name ty).2 (g.addParam name ty).2 where
  ascending := h.ascending_fresh
  ordered := h.ordered
  created := h.created
  entry := h.entry
  value := by
    rintro v w (hv | ⟨rfl, rfl⟩)
    · obtain ⟨d, e, hd, he, hr, ha⟩ := h.value hv
      refine ⟨d, e, ?_, ?_, hr.mono (ρ.le_addValue ..), ha.mono hf.addParam_reaches_iff.mpr⟩
      · rw [addParam_value?, if_neg (ne_freshValue hd), hd]
      · rw [addParam_value?, if_neg (ne_freshValue he), he]
    · refine ⟨⟨name, some ty, .param f.params.length, none⟩,
        ⟨name, some ty, .param g.params.length, none⟩, by simp [addParam_value?],
        by simp [addParam_value?], ⟨rfl, rfl, ?_, .none⟩, rfl⟩
      rw [hl]
      exact .param _
  insts hb hr := (h.insts hb (hf.addParam_reaches_iff.mp hr)).imp fun _ _ => .inl

section Emit

variable (hf : f.WellFormed) (hp : f.Open p) (hq : g.Open q)
variable (hpq : ρ.block p q) (hr : f.Reaches p) (ho : op.Renamed ρ op')
variable (hs : ∀ {b c}, ρ.block b c → b ∈ op.successors →
  f.Reaches b ∨ f.insts b = [] ∧ g.insts c = [])
include hf hp hr ho hs

theorem reaches_emit_iff :
    (f.emit p name type op).Reaches b ↔ f.Reaches b ∨ b ∈ op.successors := by
  by_cases ht : op.isTerminator = true
  case pos =>
    rw [hf.emit_reaches_iff hp ht fun _ b hb => ?_, and_iff_right hr]
    obtain ⟨c, _, hbc⟩ := exists_of_forall₂ ho.successors hb
    by_cases hbp : b = p
    case pos => exact .inl (hbp ▸ hr)
    case neg =>
      refine (hs hbc hb).imp_right fun hi => ⟨⟨(h.created hbc).1, ?_⟩, hbp⟩
      simp [terminator?_eq, hi.1]
  case neg =>
    rw [Bool.not_eq_true] at ht
    rw [hf.emit_reaches_iff_of_not_isTerminator hp ht, Op.successors_eq_nil_of_not_isTerminator ht]
    simp

include hq hpq

-- The same instruction is added to live code. It leads on only to blocks that are empty if they
-- were not reachable before.
theorem emit : Matches (ρ.addValue f.freshValue g.freshValue) (f.emit p name type op)
    (g.emit q name type op') where
  ascending := h.ascending_fresh
  ordered := h.ordered
  created hb := by simpa using h.created hb
  entry := h.entry
  value := by
    have hreach {b} (hb : f.Reaches b) : (f.emit p name type op).Reaches b :=
      (h.reaches_emit_iff hf hp hr ho hs).mpr (.inl hb)
    rintro v w (hv | ⟨rfl, rfl⟩)
    · obtain ⟨d, e, hd, he, hde, ha⟩ := h.value hv
      exact ⟨d, e, emit_value?_of_some hd, emit_value?_of_some he, hde.mono (ρ.le_addValue ..),
        ha.mono hreach⟩
    · refine ⟨_, _, emit_value?_freshValue, emit_value?_freshValue, ?_, hreach hr⟩
      exact ⟨rfl, rfl, ho.mono (ρ.le_addValue ..), .some hpq⟩
  insts := by
    intro b c hb hrb
    by_cases hbp : b = p
    case pos =>
      have hcq : c = q := (h.block_eq_iff hb hpq).mp hbp
      subst hbp hcq
      rw [emit_insts_self hp.created, emit_insts_self hq.created]
      exact List.rel_append ((h.insts hb hr).imp fun _ _ => .inl) (.cons (.inr ⟨rfl, rfl⟩) .nil)
    case neg =>
      have hcq : c ≠ q := fun hc => hbp ((h.block_eq_iff hb hpq).mpr hc)
      rw [emit_insts_of_ne hbp, emit_insts_of_ne hcq]
      have hi : List.Forall₂ ρ.value (f.insts b) (g.insts c) := by
        rcases (h.reaches_emit_iff hf hp hr ho hs).mp hrb with hrb | hsb
        · exact h.insts hb hrb
        · rcases hs hb hsb with hrb | ⟨hfb, hgc⟩
          · exact h.insts hb hrb
          · rw [hfb, hgc]
            exact .nil
      exact hi.imp fun _ _ => .inl

end Emit

-- Edges to one block are moved to an empty one, in both functions.
theorem moved {dom dom' : Scope} {old old' new new' : BlockId} {sources sources' : List BlockId}
    (hf : f.WellFormed) (hg : g.WellFormed) (hm : f.Moved dom old new sources f')
    (hm' : g.Moved dom' old' new' sources' g') (hs : List.Forall₂ ρ.block sources sources')
    (hold : ρ.block old old') (hnew : ρ.block new new') (hi : f.insts new = [])
    (hi' : g.insts new' = []) : Matches ρ f' g' where
  ascending := h.ascending
  ordered := h.ordered
  created hb := ⟨Nat.lt_of_lt_of_le (h.created hb).1 hm.evolves.size,
    Nat.lt_of_lt_of_le (h.created hb).2 hm'.evolves.size⟩
  entry := by
    rw [hm.evolves.entry, hm'.evolves.entry]
    exact h.entry
  value := by
    intro v w hv
    obtain ⟨d, e, hd, he, hde, ha⟩ := h.value hv
    have ha' : f'.Alive d := ha.mono hm.evolves.reaches
    cases ht : d.op.isTerminator
    case false =>
      exact ⟨d, e, hm.value hd ht, hm'.value he (hde.op.isTerminator.trans ht), hde, ha'⟩
    case true =>
      -- The definition is that of a terminator, which keeps all but its target.
      obtain ⟨b, hb, hr⟩ := ha.exists_block ht
      obtain ⟨c, hc, hbc⟩ := rel_of_some hde.block hb
      have hv' := hf.lists hd hb
      have hw' := hg.lists he hc
      have ht' := hde.op.isTerminator.trans ht
      have hkeep {o} (ho : f'.terminator? b = some o) : f'.value? v = some { d with op := o } :=
        value?_of_terminator? hf hm.evolves.keeps (hm.insts b) hv' hd ht ho
      have hkeep' {o} (ho : g'.terminator? c = some o) : g'.value? w = some { e with op := o } :=
        value?_of_terminator? hg hm'.evolves.keeps (hm'.insts c) hw' he ht' ho
      have ho := hf.terminator?_of_mem_insts hv' hd ht
      have ho' := hg.terminator?_of_mem_insts hw' he ht'
      by_cases hbs : b ∈ sources
      case pos =>
        obtain ⟨c', hcs, hbc'⟩ := exists_of_forall₂ hs hbs
        cases (h.block_eq_iff hbc hbc').mp rfl
        obtain ⟨_, o, ho₁, ho₂, ho₃⟩ := hm.retargeted hbs
        obtain ⟨_, o', ho₁', ho₂', ho₃'⟩ := hm'.retargeted hcs
        cases ho.symm.trans ho₁
        cases ho'.symm.trans ho₁'
        refine ⟨_, _, hkeep ho₃, hkeep' ho₃', { hde with op := ?_ }, ?_⟩
        · exact hde.op.retarget? h.block_eq_iff hold hnew ho₂ ho₂'
        · simpa [Alive, hb] using hm.evolves.reaches hr
      case neg =>
        have hcs : c ∉ sources' := fun hcs => by
          obtain ⟨b', hbs', hbc'⟩ := exists_of_forall₂ hs.flip hcs
          exact hbs ((h.block_eq_iff hbc hbc').mpr rfl ▸ hbs')
        exact ⟨d, e, hkeep ((hm.kept hbs).trans ho), hkeep' ((hm'.kept hcs).trans ho'), hde, ha'⟩
  insts := by
    intro b c hb hr
    rw [hm.insts, hm'.insts]
    rcases hm.reaches_iff.mp hr with hr | ⟨rfl, _⟩
    · exact h.insts hb hr
    · rw [← (h.block_eq_iff hnew hb).mp rfl, hi, hi']
      exact .nil

end Build

section Spare

theorem spare_left (h : Matches ρ f g) (hs : f.Spares f') : Matches ρ f' g where
  ascending := h.ascending
  ordered := h.ordered
  created hb := ⟨Nat.lt_of_lt_of_le (h.created hb).1 hs.size, (h.created hb).2⟩
  entry := hs.entry ▸ h.entry
  value hv := by
    obtain ⟨d, e, hd, he, hde, ha⟩ := h.value hv
    exact ⟨d, e, hs.value hd ha, he, hde, ha.mono hs.reaches_iff.mpr⟩
  insts hb hr := by
    have hr := hs.reaches_iff.mp hr
    exact hs.insts hr ▸ h.insts hb hr

theorem spare_right (h : Matches ρ f g) (hs : g.Spares g') : Matches ρ f g' :=
  (h.flip.spare_left hs).flip

end Spare

section Finish

-- The blocks that are left after pruning stand for each other, in the order of the layouts.
theorem layout (h : Matches ρ f g) (hf : f.Draft) (hg : g.Draft) :
    List.Forall₂ ρ.block f.trimmed.layout g.trimmed.layout := by
  refine forall₂_of_ascending h.ordered (hf.wf.pairwise_layout.filter _)
    (hg.wf.pairwise_layout.filter _) (fun b hb => ?_) fun c hc => ?_
  · obtain ⟨c, hbc, hc⟩ := h.exists_of_reaches ((mem_trimmed_layout_iff hf).mp hb)
    exact ⟨c, (mem_trimmed_layout_iff hg).mpr hc, hbc⟩
  · obtain ⟨b, hbc, hb⟩ := h.exists_of_reaches' ((mem_trimmed_layout_iff hg).mp hc)
    exact ⟨b, (mem_trimmed_layout_iff hf).mpr hb, hbc⟩

theorem instructions (h : Matches ρ f g) (hb : ρ.block b c) (hr : f.Reaches b) :
    List.Forall₂ (fun i j => ρ.value i.1 j.1 ∧ i.2.Renamed ρ j.2) (f.instructions b)
      (g.instructions c) := by
  rw [instructions_eq, instructions_eq]
  have hi := h.insts hb hr
  generalize f.insts b = l at hi ⊢
  generalize g.insts c = l' at hi ⊢
  induction hi
  case nil => exact .nil
  case cons v w l l' hv _ hi =>
    obtain ⟨d, e, hd, he, hde, _⟩ := h.value hv
    simp only [List.filterMap_cons, hd, he, Option.map_some]
    exact .cons ⟨hv, hde⟩ hi

-- Pruned functions with the same live code are the same.
theorem renamed (h : Matches ρ f g) (hf : f.Draft) (hg : g.Draft) (hn : g.name = f.name)
    (hr : g.result = f.result) (hp : List.Forall₂ ρ.value f.params g.params) :
    f.trimmed.Renamed ρ g.trimmed where
  value_unique := ⟨fun _ _ _ hv hv' => (h.value_eq_iff hv hv').mpr rfl,
    fun _ _ _ hv hv' => (h.value_eq_iff hv hv').mp rfl⟩
  block_unique := ⟨fun _ _ _ hb hb' => (h.block_eq_iff hb hb').mpr rfl,
    fun _ _ _ hb hb' => (h.block_eq_iff hb hb').mp rfl⟩
  name := hn
  result := hr
  entry := h.entry
  params := hp
  layout := h.layout hf hg
  value hv := by
    obtain ⟨d, e, hd, he, hde, _⟩ := h.value hv
    exact ⟨d, e, hd, he, hde⟩
  code hb hm := h.instructions hb ((mem_trimmed_layout_iff hf).mp hm)

end Finish

end Matches

namespace Spares

theorem refl (f : Function) : f.Spares f :=
  ⟨rfl, Nat.le_refl _, .rfl, fun hd _ => hd, fun _ => rfl⟩

theorem trans (h₁ : f.Spares f') (h₂ : f'.Spares g) : f.Spares g where
  entry := h₂.entry.trans h₁.entry
  size := Nat.le_trans h₁.size h₂.size
  reaches_iff := h₂.reaches_iff.trans h₁.reaches_iff
  value hd ha := h₂.value (h₁.value hd ha) (ha.mono h₁.reaches_iff.mpr)
  insts hb := (h₂.insts (h₁.reaches_iff.mpr hb)).trans (h₁.insts hb)

theorem addBlock (he : f.entry.isSome) : f.Spares (f.addBlock name).2 where
  entry := addBlock_entry he
  size := by simp
  reaches_iff := addBlock_reaches_iff he
  value hd _ := hd
  insts _ := addBlock_insts

-- Nothing leads to the block that is added to.
theorem emit (hf : f.WellFormed) (hp : f.Open p) (hr : ¬f.Reaches p) :
    f.Spares (f.emit p name type op) where
  entry := rfl
  size := by simp
  reaches_iff := by
    intro b
    cases ht : op.isTerminator
    case false => exact hf.emit_reaches_iff_of_not_isTerminator hp ht
    case true =>
      rw [hf.emit_reaches_iff hp ht fun h => absurd h hr]
      simp [hr]
  value hd _ := emit_value?_of_some hd
  insts hb := emit_insts_of_ne fun he => hr (he ▸ hb)

end Spares

end Function

end StackCompiler.Ssa
