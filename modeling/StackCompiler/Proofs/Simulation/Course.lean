import StackCompiler.Proofs.Lowering.Function
import StackCompiler.Proofs.Semantics.Stack

-- The course of a lowering: what the instructions that follow leave alone, up to the end of a region
-- and up to the finished function. Only the edges of blocks that broke out of an `if` can still be
-- moved, and only the continuations of open regions can still get a phi.

namespace StackCompiler.Lowering.Direct

open Bytecode (Instruction)
open Ssa (BlockId Function Op Scope ValueId)

variable {cx : Context} {e f g : Function} {dom dom' : Scope} {calls : List Nat} {s t u : State}
variable {p : BlockId} {op : Op} {r r' : Region} {l l₁ l₂ : List Region}

namespace Region

-- Block `p` left the `if`, and its edge moves if there is another branch.
def Breaks (r : Region) (p : BlockId) : Prop :=
  ∃ breaks, r.kind = .if_ breaks ∧ p ∈ breaks

-- Block `p` left with value `v` as the result.
def Brings (r : Region) (p : BlockId) (v : ValueId) : Prop :=
  ∃ res, r.result = some res ∧ (p, v) ∈ res.incoming

-- The region after more blocks have left it, which were open in `f`.
structure Later (f : Function) (r r' : Region) : Prop where
  frame : r'.frame = r.frame
  isIf : r'.IsIf ↔ r.IsIf
  breaks : ∀ {p}, r.Breaks p → r'.Breaks p
  closed : ∀ {p op}, f.terminator? p = some op → r'.Breaks p → r.Breaks p
  brings : ∀ {p v}, r.Brings p v → r'.Brings p v

-- A region that `f` does not know of.
structure New (f : Function) (r : Region) : Prop where
  created : f.blocks.size ≤ r.continuation.index
  closed : ∀ {p op}, f.terminator? p = some op → ¬r.Breaks p

theorem Later.refl (f : Function) (r : Region) : r.Later f r :=
  ⟨rfl, .rfl, id, fun _ => id, id⟩

theorem forall₂_later_refl (f : Function) (l : List Region) : List.Forall₂ (Later f) l l :=
  List.forall₂_same.mpr fun _ _ => .refl ..

-- A block that is still open leaves the region.
theorem Later.exit {after : Option Result} (ho : s.function.Open s.block)
    (hh : s.Hands r.result after) : r.Later s.function (r.exit s.block after) where
  frame := exit_frame hh
  isIf := isIf_exit_iff
  breaks := by
    rintro p ⟨breaks, hk, hp⟩
    exact ⟨_, exit_kind_eq_if_iff.mpr ⟨breaks, hk, rfl⟩, List.mem_append_left _ hp⟩
  closed := by
    rintro p op ht ⟨breaks, hk, hp⟩
    have ⟨old, hold, he⟩ := exit_kind_eq_if_iff.mp hk
    have hne : p ≠ s.block := by
      rintro rfl
      simp [ho.unclosed] at ht
    rw [he] at hp
    exact ⟨old, hold, by simpa [hne] using hp⟩
  brings := by
    rintro p v ⟨res, hres, hp⟩
    rw [hres] at hh
    cases hh
    case value => exact ⟨_, rfl, List.mem_append_left _ hp⟩

end Region

-- Function `g` is what becomes of `f` while the lowering gets out of the regions of `l`.
structure Becomes (f g : Function) (l : List Region) : Prop extends f.Begins g where
  size : f.blocks.size ≤ g.blocks.size
  closed : ∀ {p op}, f.terminator? p = some op →
    g.insts p = f.insts p ∧ ∃ op', g.terminator? p = some op'
  terminator : ∀ {p op}, f.terminator? p = some op → (∀ r ∈ l, ¬r.Breaks p) →
    g.terminator? p = some op
  noPhi : ∀ {b}, b.index < f.blocks.size → (∀ r ∈ l, r.continuation ≠ b) → f.NoPhi b → g.NoPhi b
  reaches : ∀ {b}, f.Reaches b → g.Reaches b

namespace Becomes

theorem of_grows (hg : f.Grows g) (hw : g.WellFormed) (he : g.entry = f.entry)
    (hs : f.blocks.size ≤ g.blocks.size)
    (hp : ∀ {b}, (∀ r ∈ l, r.continuation ≠ b) → f.NoPhi b → g.NoPhi b) : Becomes f g l where
  size := hs
  keeps := hg.keeps
  value hd _ := hg.value hd
  insts := hg.insts
  closed ht := have ⟨hi, ht⟩ := hg.terminator? hw ht; ⟨hi, _, ht⟩
  terminator ht _ := (hg.terminator? hw ht).2
  noPhi _ := hp
  reaches := .mono he.symm fun _ hb => by
    have ⟨op, ht, hb⟩ := Function.terminator?_of_mem_successors hb
    rwa [Function.successors_of_terminator? (hg.terminator? hw ht).2]

theorem of_extends (h : f.Extends g) (hw : g.WellFormed) : Becomes f g l :=
  .of_grows h.grows hw h.entry h.size fun _ => h.noPhi

-- What is left in the second part is new or was there before.
theorem trans (h₁ : Becomes e f l₁) (h₂ : Becomes f g l₂) (hl : l₁ ⊆ l)
    (hr : ∀ r' ∈ l₂, r'.New e ∨ ∃ r ∈ l, r.Later e r') : Becomes e g l where
  size := Nat.le_trans h₁.size h₂.size
  keeps := h₁.keeps.trans h₂.keeps
  value hd ht := h₂.value (h₁.value hd ht) ht
  insts b := (h₁.insts b).trans (h₂.insts b)
  closed ht := by
    have ⟨hi, _, ht⟩ := h₁.closed ht
    have ⟨hi', ht⟩ := h₂.closed ht
    exact ⟨hi'.trans hi, ht⟩
  terminator := by
    intro p op ht hn
    refine h₂.terminator (h₁.terminator ht fun r hm => hn r (hl hm)) fun r' hm hb => ?_
    rcases hr r' hm with h | ⟨r, hm, h⟩
    · exact h.closed ht hb
    · exact hn r hm (h.closed ht hb)
  noPhi := by
    intro b hc hn hp
    refine h₂.noPhi (Nat.lt_of_lt_of_le hc h₁.size) (fun r' hm he => ?_)
      (h₁.noPhi hc (fun r hm => hn r (hl hm)) hp)
    rcases hr r' hm with h | ⟨r, hm, h⟩
    · exact Nat.not_lt_of_le h.created (he ▸ hc)
    · exact hn r hm ((Region.continuation_congr h.frame).symm.trans he)
  reaches hb := h₂.reaches (h₁.reaches hb)

end Becomes

theorem Region.Later.trans {r'' : Region} (hb : Becomes f g l) (h₁ : r.Later f r')
    (h₂ : r'.Later g r'') : r.Later f r'' where
  frame := h₂.frame.trans h₁.frame
  isIf := h₂.isIf.trans h₁.isIf
  breaks h := h₂.breaks (h₁.breaks h)
  closed ht h := have ⟨_, _, ht'⟩ := hb.closed ht; h₁.closed ht (h₂.closed ht' h)
  brings h := h₂.brings (h₁.brings h)

theorem Region.forall₂_later_trans (hb : Becomes f g l) {l₃ : List Region}
    (h₁ : List.Forall₂ (Later f) l₁ l₂) (h₂ : List.Forall₂ (Later g) l₂ l₃) :
    List.Forall₂ (Later f) l₁ l₃ := by
  induction h₁ generalizing l₃
  case nil =>
    cases h₂
    exact .nil
  case cons h _ hi =>
    cases h₂
    case cons h' h₂ => exact .cons (h.trans hb h') (hi h₂)

theorem Region.exists_later_of_mem (h : List.Forall₂ (Later f) l₁ l₂) (hr : r' ∈ l₂) :
    ∃ r ∈ l₁, r.Later f r' := by
  induction h
  case nil => simp at hr
  case cons h _ hi =>
    rcases List.mem_cons.mp hr with rfl | hr
    · exact ⟨_, .head _, h⟩
    · have ⟨r, hr, h⟩ := hi hr
      exact ⟨r, .tail _ hr, h⟩

theorem Region.exists_later_getElem? {n : Nat} (h : List.Forall₂ (Later f) l₁ l₂)
    (hr : l₁[n]? = some r) : ∃ r', l₂[n]? = some r' ∧ r.Later f r' := by
  induction h generalizing n
  case nil => simp at hr
  case cons h _ hi =>
    cases n
    case zero => exact ⟨_, rfl, Option.some.inj hr ▸ h⟩
    case succ => exact hi hr

-- An instruction closes `m` regions, opens those of `new`, and may leave the others.
structure State.Moves (s t : State) (m : Nat) (new : List Region) : Prop where
  becomes : Becomes s.function t.function (s.regions.take m)
  kept : ∃ kept, t.regions = new ++ kept ∧
    List.Forall₂ (Region.Later s.function) (s.regions.drop m) kept
  fresh : ∀ r ∈ new, r.New s.function
  below : ∀ h ≤ s.floor, t.below h = s.below h

namespace State

theorem Moves.new_or_later {m : Nat} {new : List Region} (h : s.Moves t m new) (n : Nat) :
    ∀ r' ∈ t.regions.take (n + new.length), r'.New s.function ∨
      ∃ r ∈ s.regions.take (m + n), r.Later s.function r' := by
  intro r' hr'
  have ⟨kept, hk, hl⟩ := h.kept
  rw [hk, Nat.add_comm, List.take_length_add_append] at hr'
  rcases List.mem_append.mp hr' with hr' | hr'
  · exact .inl (h.fresh r' hr')
  · have ⟨r, hr, hl⟩ := Region.exists_later_of_mem (List.forall₂_take n hl) hr'
    rw [List.take_drop] at hr
    exact .inr ⟨r, List.mem_of_mem_drop hr, hl⟩

theorem Advances.moves (a : s.Advances t) (hw : t.function.WellFormed) : s.Moves t 0 [] where
  becomes := .of_extends a.function hw
  kept := ⟨_, a.regions, Region.forall₂_later_refl ..⟩
  fresh := by simp
  below := a.below

theorem Advances.trans_moves {m : Nat} {new : List Region} (a : s.Advances u)
    (hw : u.function.WellFormed) (h : u.Moves t m new) : s.Moves t m new := by
  have hb : Becomes s.function u.function [] := .of_extends a.function hw
  have hm : ∀ r ∈ u.regions.take m, r.New s.function ∨ ∃ o ∈ s.regions.take m, o.Later s.function r :=
    fun r hr => .inr ⟨r, a.regions ▸ hr, .refl ..⟩
  have ⟨kept, hk, hl⟩ := h.kept
  refine ⟨hb.trans h.becomes (by simp) hm, ⟨kept, hk, ?kept⟩, fun r hr => ?fresh, fun k hh => ?below⟩
  case kept =>
    rw [← a.regions]
    exact Region.forall₂_later_trans hb (Region.forall₂_later_refl ..) hl
  case fresh =>
    have hn := h.fresh r hr
    refine ⟨Nat.le_trans a.function.size hn.created, fun ht => ?_⟩
    have ⟨_, _, ht⟩ := hb.closed ht
    exact hn.closed ht
  case below => exact (h.below k (a.floor ▸ hh)).trans (a.below k hh)

theorem Exits.later {depth : Nat} {b : BlockId} {rs : List Region} (he : s.Exits depth b rs)
    (ho : s.function.Open s.block) : List.Forall₂ (Region.Later s.function) s.regions rs := by
  cases he
  case restart => exact Region.forall₂_later_refl ..
  case leave r after hr hk hh =>
    refine List.forall₂_iff_get.mpr ⟨by simp, fun n h₁ h₂ => ?_⟩
    simp only [List.get_eq_getElem, List.getElem_set]
    split
    case isTrue hn =>
      subst hn
      have hr : s.regions[depth] = r := (List.getElem?_eq_some_iff.mp hr).2
      rw [hr]
      exact .exit ho hh
    case isFalse => exact .refl ..

section Receive

variable (s : State) (after : Option Result)

@[simp]
theorem receive_regions : (s.receive after).regions = s.regions := by
  unfold receive
  split <;> try split
  all_goals rfl

@[simp]
theorem receive_block : (s.receive after).block = s.block := by
  unfold receive
  split <;> try split
  all_goals rfl

theorem receive_stack : (s.receive after).stack =
    (after.map fun _ => Operand.value s.function.freshValue).toList ++ s.stack := by
  unfold receive
  split <;> try split
  all_goals rfl

theorem below_receive {h : Nat} (hh : h ≤ s.stack.length) :
    (s.receive after).below h = s.below h := by
  simp only [below, receive_stack]
  cases after
  case none => rfl
  case some => exact below_cons hh

theorem receive_function (res : Result) : ∃ name type op,
    (s.receive (some res)).function = s.function.emit s.block name type op := by
  simp only [receive]
  split <;> exact ⟨_, _, _, rfl⟩

end Receive

section Control

variable {kind : RegionKind} {result after : Option Result} {depth : Nat} {outer : List Region}
variable (hv : s.Valid cx dom calls)
include hv

theorem Valid.moves_enter (he : Enters s.function.freshBlock s.grow.function.freshBlock kind op)
    (hf : s.function.Fits dom s.block none op) :
    s.Moves (s.enter kind op result) 0
      [⟨kind, s.grow.function.freshBlock, result, s.stack.length, !s.isDead⟩] := by
  have hne := s.freshBlock_ne
  have ⟨_, hs, _⟩ := hv.fork (by cases he <;> rfl) (by cases he <;> simp [Op.successors, hne])
    (by cases he <;> simp [Op.successors]) hf
  refine ⟨.of_extends hs.extends hs.draft.wf, ⟨s.regions, rfl, ?_⟩, ?fresh, fun _ _ => rfl⟩
  · exact Region.forall₂_later_refl ..
  case fresh =>
    refine List.forall_mem_singleton.mpr ⟨by simp [grow], fun _ => ?_⟩
    rintro ⟨breaks, hk, hp⟩
    cases he <;> simp_all

theorem Valid.moves_die (hw : u.die.function.WellFormed) (hp : op.isPhi = false)
    (hf : u.function = s.function.emit s.block "" none op)
    (hr : List.Forall₂ (Region.Later s.function) s.regions u.regions) (hfl : u.floor = s.floor)
    (hh : s.floor ≤ u.stack.length) (hb : ∀ h ≤ s.floor, u.below h = s.below h) :
    s.Moves u.die 0 [] where
  becomes := by
    have he : u.function.entry.isSome := hf ▸ hv.draft.entry
    have hu : s.function.Extends u.function := hf ▸ .emit hv.draft hv.isOpen hp
    exact .of_extends (hu.trans (.addBlock he)) hw
  kept := ⟨u.regions, rfl, hr⟩
  fresh := by simp
  below h hle := by
    simp only [State.die, hfl]
    exact (below_below hle hh).trans (hb h hle)

theorem Leaves.moves (hd : s.isDead = false) (h : s.Leaves cx depth t) : s.Moves t 0 [] := by
  have ⟨_, ht⟩ := h.valid hv hd
  have hw := ht.draft.wf
  cases h
  case returns u op _ hr =>
    have hp : op.isPhi = false := by cases hr.yields <;> rfl
    have hl := Region.forall₂_later_refl s.function s.regions
    rcases hr.popped with rfl | ⟨o, rest, hk, hf, rfl⟩
    · exact hv.moves_die hw hp rfl hl rfl hv.floor_le fun _ _ => rfl
    · exact hv.moves_die hw hp rfl hl rfl hf (s.advances_tail hk hf).below
  case exits b regions he =>
    exact hv.moves_die hw rfl rfl (he.later hv.isOpen) (floor_congr he.map_frame) hv.floor_le
      fun _ _ => rfl

theorem Forks.moves {lhs rhs : ValueId} {cond : Comparison} {ty : Scalar} (hd : s.isDead = false)
    (hl : s.function.Usable dom s.block lhs ty) (hr : s.function.Usable dom s.block rhs ty)
    (h : s.Forks cx lhs cond rhs depth t) : s.Moves t 0 [] := by
  have ⟨_, ht⟩ := h.valid hv hd hl hr
  have hw := ht.draft.wf
  cases h
  case exits b regions he =>
    refine ⟨.of_extends ?_ hw, ⟨regions, rfl, he.later hv.isOpen⟩, by simp, fun _ _ => rfl⟩
    exact .trans (.addBlock hv.draft.entry) (.emit hv.draft.addBlock (open_grow hv.isOpen) rfl)
  case returns op hdepth hy =>
    have hne := s.freshBlock_ne
    have hf : s.function.Fits dom s.block none
        (.branch lhs cond rhs s.function.freshBlock s.grow.function.freshBlock) := .branch hl hr
    have ⟨_, hs, _⟩ := hv.fork rfl (by simp [Op.successors, hne]) (by simp [Op.successors]) hf
    have ho := hs.open_iff.mpr (.inr (.head _))
    have hp : op.isPhi = false := by cases hy <;> rfl
    exact ⟨.of_extends (hs.extends.trans (.emit hs.draft ho hp)) hw,
      ⟨s.regions, rfl, Region.forall₂_later_refl ..⟩, by simp, fun _ _ => rfl⟩

theorem Ends.moves_turn {breaks : List BlockId} (hr : s.regions = r :: outer)
    (hk : r.kind = .if_ breaks) (he : s.Ends r s.function.freshBlock op after)
    (hg : breaks.forM (Function.retarget · r.continuation s.function.freshBlock)
      (s.grow.emit "" none op).function = .ok () g) :
    s.Moves (s.turn r outer after g) 1
      [{ r with kind := .else_, continuation := s.function.freshBlock, result := after }] where
  becomes := by
    have hs := Ends.sealed_turn hv hr he
    have ⟨g', hg', hm⟩ := Ends.exists_moved hv hr he hk
    cases hg.symm.trans hg'
    have hc {p op} (ht : s.function.terminator? p = some op) := hs.grows.terminator? hs.draft.wf ht
    exact {
      size := Nat.le_trans hs.evolves.size hm.evolves.size
      keeps := hs.grows.keeps.trans hm.evolves.keeps
      value := fun hd ht => hm.value (hs.grows.value hd) ht
      insts := fun b => hm.insts b ▸ hs.grows.insts b
      closed := fun {p op} ht => by
        have ⟨hi, ht⟩ := hc ht
        refine ⟨(hm.insts p).trans hi, ?_⟩
        by_cases hp : p ∈ breaks
        · have ⟨_, _, _, _, ht⟩ := hm.retargeted hp
          exact ⟨_, ht⟩
        · exact ⟨_, (hm.kept hp).trans ht⟩
      terminator := fun {p op} ht hn => by
        have hp : p ∉ breaks := fun hp => hn r (by simp [hr]) ⟨breaks, hk, hp⟩
        exact (hm.kept hp).trans (hc ht).2
      noPhi := fun _ _ hb => hm.noPhi (hs.noPhi hb)
      reaches := fun hb => hm.evolves.reaches (hs.evolves.reaches hb) }
  kept := ⟨outer, rfl, by simpa [hr] using Region.forall₂_later_refl s.function outer⟩
  fresh := List.forall_mem_singleton.mpr ⟨Nat.le_refl _, fun _ h => by simp [Region.Breaks] at h⟩
  below h hh := by
    have hh : h ≤ r.height := by simpa [State.floor, hr] using hh
    exact below_below hh (hv.within r (by simp [hr])).height


theorem Ends.moves (hr : s.regions = r :: outer) (hi : r.IsIf → r.result = none)
    (he : s.Ends r r.continuation op after) :
    s.Moves ((s.resume r outer op).receive after) 1 [] where
  becomes := by
    have hu := Ends.valid_resume hv hr he
    have hw := (he.valid hv hr hi).draft.wf
    have hx : s.function.Extends (s.resume r outer op).function :=
      .emit hv.draft hv.isOpen (by cases he <;> rfl)
    cases after
    case none => exact .of_extends hx hw
    case some res =>
      have ⟨name, type, op', hf⟩ := (s.resume r outer op).receive_function res
      rw [hf] at hw ⊢
      refine .of_grows (hx.grows.trans (.emit hu.isOpen.created)) hw hx.entry (by simpa using hx.size) ?_
      intro b hb hp
      refine hu.draft.noPhi_emit_of_ne (fun he => ?_) (hx.noPhi hp)
      exact hb r (by simp [hr]) he.symm
  kept := ⟨outer, by simp [resume], by simpa [hr] using Region.forall₂_later_refl s.function outer⟩
  fresh := by simp
  below h hh := by
    have hh : h ≤ r.height := by simpa [State.floor, hr] using hh
    have hk := (hv.within r (by simp [hr])).height
    have hl : (s.below r.height).length = r.height := length_below hk
    exact (below_receive _ _ (by simpa [resume, hl] using hh)).trans (below_below hh hk)

end Control

-- The same in the code: how instruction `i` changes the nesting depth.
structure Nests (s : State) (i : Instruction) (t : State) (m : Nat) (new : List Region) : Prop
    extends s.Moves t m new where
  closes : m = 0 ∨ m = 1 ∧ (i = .else_ ∨ i = .end_)
  seek : ∀ {k code}, m ≤ k → Stack.seek k (i :: code) = Stack.seek (k - m + new.length) code

end State

-- Most instructions leave the nesting alone.
theorem State.Moves.nests {i : Instruction} (h : s.Moves t 0 [])
    (hi : ∀ {k code}, Stack.seek k (i :: code) = Stack.seek k code) :
    ∃ m new, s.Nests i t m new :=
  ⟨0, [], { h with closes := .inl rfl, seek := fun _ => hi }⟩

theorem State.Moves.nests_enter {i : Instruction} (h : s.Moves t 0 [r])
    (hi : ∀ {k code}, Stack.seek k (i :: code) = Stack.seek (k + 1) code) :
    ∃ m new, s.Nests i t m new :=
  ⟨0, [r], { h with closes := .inl rfl, seek := fun _ => hi }⟩

theorem step_nests {i : Instruction} (hv : s.Valid cx dom calls) :
    Meets (step cx i) s fun _ t => ∃ m new, s.Nests i t m new := by
  cases i
  case block =>
    refine (startBlock_meets hv).mono fun _ t ⟨res, _, ht⟩ => ?_
    exact (ht ▸ hv.moves_enter .block .jump).nests_enter (by simp [Stack.seek])
  case loop =>
    refine (startLoop_meets hv).mono fun _ t ⟨res, _, ht⟩ => ?_
    exact (ht ▸ hv.moves_enter .loop .jump).nests_enter (by simp [Stack.seek])
  case if_ =>
    refine (startIf_meets hv).mono fun _ t ⟨l, c, r, u, res, _, hi, ⟨ty, hl, hr⟩, _, ht⟩ => ?_
    have hm : u.Moves t 0 _ := ht ▸ hi.valid.moves_enter (.if_ l c r) (.branch hl hr)
    exact (hi.advances.trans_moves hi.valid.draft.wf hm).nests_enter (by simp [Stack.seek])
  case else_ =>
    refine (startElse_meets hv).mono fun _ t h => ?_
    obtain ⟨r, outer, breaks, op, after, g, hr, hk, he, hg, rfl⟩ := h
    refine ⟨1, _, { he.moves_turn hv hr hk hg with closes := .inr ⟨rfl, .inl rfl⟩, seek := ?_ }⟩
    rintro (_ | k) code hk
    · simp at hk
    · simp [Stack.seek]
  case end_ =>
    have hs {k code} (hk : 1 ≤ k) : Stack.seek k (.end_ :: code) = Stack.seek (k - 1) code := by
      cases k
      case zero => simp at hk
      case succ => simp [Stack.seek]
    refine (close_meets hv).mono fun _ t h => ?_
    rcases h with ⟨hr, rfl⟩ | ⟨r, outer, op, after, hr, hi, he, rfl⟩
    · have hm : s.Moves { s with isEnded := true } 1 [] :=
        ⟨.of_extends (.refl _) hv.draft.wf, ⟨[], hr, by simp [hr]⟩, by simp, fun _ _ => rfl⟩
      exact ⟨1, [], { hm with closes := .inr ⟨rfl, .inr rfl⟩, seek := hs }⟩
    · exact ⟨1, [], { he.moves hv hr hi with closes := .inr ⟨rfl, .inr rfl⟩, seek := hs }⟩
  case br =>
    refine (branch_meets hv).mono fun _ t h => ?_
    rcases h with ⟨_, rfl⟩ | ⟨hd, hl⟩
    · exact (State.Advances.refl t).moves hv.draft.wf |>.nests (by simp [Stack.seek])
    · exact (hl.moves hv hd).nests (by simp [Stack.seek])
  case brIf =>
    refine (branchIf_meets hv).mono fun _ t h => ?_
    have ⟨lhs, cond, rhs, u, _, hi, ⟨ty, hl, hr⟩, hor⟩ := h
    rcases hor with ⟨_, rfl⟩ | ⟨hd, hf⟩
    · exact (hi.advances.moves hi.valid.draft.wf).nests (by simp [Stack.seek])
    · have hm := hi.advances.trans_moves hi.valid.draft.wf (hf.moves hi.valid hd hl hr)
      exact hm.nests (by simp [Stack.seek])
  case return_ =>
    refine (return_meets hv).mono fun _ t h => ?_
    rcases h with ⟨_, rfl⟩ | ⟨hd, hl⟩
    · exact (State.Advances.refl t).moves hv.draft.wf |>.nests (by simp [Stack.seek])
    · exact (hl.moves hv hd).nests (by simp [Stack.seek])
  all_goals
    refine (step_inside_meets hv trivial).mono fun _ _ h => ?_
    exact (h.advances.moves h.valid.draft.wf).nests (by simp [Stack.seek])

-- The code that follows in a state, and the function that comes out in the end.
inductive Finishes (cx : Context) (f : Function) : List Instruction → State → Prop
  | done {s t : State} {dom : Scope} {calls : List Nat} (hv : s.Valid cx dom calls)
    (hr : s.regions = []) (hc : s.Concludes cx t) (hf : f = t.function) : Finishes cx f [] s
  -- Between the instructions there are notes in the journal.
  | step {s t : State} {i : Instruction} {code : List Instruction} {j : Journal} {dom : Scope}
    {calls : List Nat} (hv : s.Valid cx dom calls) (he : s.isEnded = false)
    (hx : step cx i { s with journal := j } = .ok () t) (h : Finishes cx f code t) :
    Finishes cx f (i :: code) s

namespace Finishes

variable {code : List Instruction}

theorem valid : Finishes cx f code s → ∃ dom calls, s.Valid cx dom calls
  | .done hv .. | .step hv .. => ⟨_, _, hv⟩

theorem of_nil : Finishes cx f [] s →
    ∃ t dom calls, s.Valid cx dom calls ∧ s.Concludes cx t ∧ f = t.function
  | .done hv _ hc hf => ⟨_, _, _, hv, hc, hf⟩

theorem of_cons {i : Instruction} : Finishes cx f (i :: code) s → s.isEnded = false ∧
    ∃ j dom calls t, ({ s with journal := j } : State).Valid cx dom calls ∧
      Direct.step cx i { s with journal := j } = .ok () t ∧ Finishes cx f code t
  | .step hv he hx h => ⟨he, _, _, _, _, hv.journal _, hx, h⟩

theorem of_lowerCode_meets {function : String} {total position : Nat} (hv : s.Valid cx dom calls) :
    Meets (lowerCode cx function total position code) s fun _ t =>
      ∀ u, t.regions = [] → t.Concludes cx u → Finishes cx u.function code s := by
  induction code generalizing s dom calls position
  case nil => exact fun u hr hc => .done hv hr hc rfl
  case cons i code hi =>
    simp only [lowerCode, meets_bind, meets_note, meets_get, meets_ite]
    refine ⟨fun _ => trivial, fun he => ?_⟩
    refine (step_meets (hv.journal _)).eq_ok.mono fun _ t ⟨hx, dom', ht⟩ => ?_
    refine (hi ht).mono fun _ _ h u hr hc => ?_
    exact .step hv (by simpa using he) hx (h u hr hc)

-- What is there stays there up to the finished function.
theorem becomes (h : Finishes cx f code s) : Becomes s.function f s.regions := by
  induction h
  case done s t dom calls hv hr hc hf =>
    have hemit {op} (ho : op.isPhi = false) :
        Becomes s.function (s.function.emit s.block "" none op) s.regions :=
      .of_extends (.emit hv.draft hv.isOpen ho) (hv.draft.wf.emit hv.isOpen)
    subst hf
    cases hc
    case dead => exact hemit rfl
    case live u op hd hret =>
      have hp : op.isPhi = false := by cases hret.yields <;> rfl
      rcases hret.popped with rfl | ⟨_, _, _, _, rfl⟩ <;> exact hemit hp
  case step s t i code j dom calls hv he hx h hi =>
    have ⟨m, new, hm⟩ := (step_nests (hv.journal j)).of_ok hx
    refine hm.becomes.trans hi (List.take_subset ..) fun r' hr' => ?_
    have hr' : r' ∈ t.regions.take (t.regions.length + new.length) := by
      rwa [List.take_of_length_le (Nat.le_add_right ..)]
    refine (hm.new_or_later _ r' hr').imp_right fun ⟨r, hr, hl⟩ => ?_
    exact ⟨r, List.mem_of_mem_take hr, hl⟩

end Finishes

section Lowered

variable {globals : List GlobalSlot} {callees : List Callee} {own : Callee} {body : Bytecode.Body}

theorem Lowered.finishes (l : Lowered globals callees own body) :
    Finishes l.context l.last.function body.code l.ready :=
  (Finishes.of_lowerCode_meets l.valid_ready).of_ok l.lowerCode_eq _ l.regions_eq l.concludes

theorem Lowered.name_eq (l : Lowered globals callees own body) : l.last.function.name = own.name :=
  l.finishes.becomes.keeps.name.trans l.advances_ready.grows.name

end Lowered

-- The lowering goes on to the end of the region `k` levels out.
structure State.Unwinds (s : State) (k : Nat) (t : State) : Prop where
  becomes : Becomes s.function t.function (s.regions.take k)
  regions : List.Forall₂ (Region.Later s.function) (s.regions.drop k) t.regions
  below : ∀ {r}, s.regions[k]? = some r → ∀ h ≤ r.height, t.below h = s.below h

-- The code from the end of a region on is the code that follows where the lowering has come to
-- that end.
theorem Finishes.seek {code : List Instruction} {k : Nat} (h : Finishes cx f code s)
    (hk : k < s.regions.length) :
    ∃ i code' t, (i = .else_ ∨ i = .end_) ∧ Stack.seek k code = i :: code' ∧
      Finishes cx f (i :: code') t ∧ s.Unwinds k t := by
  induction h generalizing k
  case done hr _ _ => simp [hr] at hk
  case step s t i code j dom calls hv he hx h hi =>
    have ⟨m, new, hm⟩ := (step_nests (hv.journal j)).of_ok hx
    by_cases hmk : m ≤ k
    case neg =>
      -- This is the end of the region.
      have ⟨hm, hor⟩ : m = 1 ∧ (i = .else_ ∨ i = .end_) := hm.closes.resolve_left (by omega)
      obtain rfl : k = 0 := by omega
      refine ⟨i, code, s, hor, ?_, .step hv he hx h, ?_, ?_, fun _ _ _ => rfl⟩
      · rcases hor with rfl | rfl <;> rfl
      · exact .of_extends (.refl _) hv.draft.wf
      · exact Region.forall₂_later_refl ..
    case pos =>
      have ⟨kept, hkept, hl⟩ := hm.kept
      have hlen : kept.length = s.regions.length - m := by simpa using hl.length_eq.symm
      have ⟨i', code', u, hor, hs, hf, hu⟩ := hi (k := k - m + new.length) <| by
        rw [hkept, List.length_append]
        omega
      have hdrop : t.regions.drop (k - m + new.length) = kept.drop (k - m) := by
        rw [hkept, Nat.add_comm, List.drop_length_add_append]
      have hl : List.Forall₂ (Region.Later s.function) (s.regions.drop k) (kept.drop (k - m)) := by
        simpa [Nat.add_sub_cancel' hmk] using List.forall₂_drop (k - m) hl
      refine ⟨i', code', u, hor, (hm.seek hmk).trans hs, hf, ?becomes, ?regions, ?below⟩
      case becomes =>
        have hn := hm.new_or_later (k - m)
        rw [Nat.add_sub_cancel' hmk] at hn
        exact hm.becomes.trans hu.becomes (List.take_subset_take_left _ hmk) hn
      case regions => exact Region.forall₂_later_trans hm.becomes hl (hdrop ▸ hu.regions)
      case below =>
        intro r hr h hh
        have hle : r.height ≤ s.floor := hv.height_le_floor (List.mem_of_getElem? hr)
        have ⟨r', hr', hlr⟩ : ∃ r', t.regions[k - m + new.length]? = some r' ∧
            r.Later s.function r' := by
          have hr : (s.regions.drop k)[0]? = some r := by simpa using hr
          have ⟨r', hr', hlr⟩ := Region.exists_later_getElem? hl hr
          exact ⟨r', by simpa [← hdrop] using hr', hlr⟩
        rw [hu.below hr' h (Region.height_congr hlr.frame ▸ hh)]
        exact hm.below h (Nat.le_trans hh hle)

end StackCompiler.Lowering.Direct
