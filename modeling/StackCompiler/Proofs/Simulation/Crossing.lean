import StackCompiler.Proofs.Simulation.Data

-- Control crosses an edge: what the machine for single-assignment code does at the end of a block,
-- and what it finds in the block that it comes to.

namespace StackCompiler

namespace Ssa

variable {I : Interpretation} {f : Function} {b p : BlockId} {e : Config I} {v x : ValueId}
variable {d : ValueDef} {incoming : List (BlockId × ValueId)} {values : List ValueId}

theorem Function.code_trimmed (hf : f.Draft) (hb : f.Reaches b) :
    f.trimmed.code b = f.defs (f.insts b) := by
  have hi : f.trimmed.instructions b = f.instructions b := rfl
  rw [code, if_pos ((mem_trimmed_layout_iff hf).mpr hb), hi, instructions_eq, defs]

theorem Function.mem_defs_iff : (v, d) ∈ f.defs values ↔ v ∈ values ∧ f.value? v = some d := by
  simp only [defs, List.mem_filterMap, Option.map_eq_some_iff, Prod.mk.injEq]
  constructor
  case mp =>
    rintro ⟨_, hv, _, hd, rfl, rfl⟩
    exact ⟨hv, hd⟩
  case mpr =>
    rintro ⟨hv, hd⟩
    exact ⟨v, hv, d, hd, rfl, rfl⟩

theorem takeWhile_isPhi {l : List (ValueId × ValueDef)} (h : ∀ i ∈ l, i.2.op.isPhi = false) :
    l.takeWhile (·.2.op.isPhi) = [] ∧ l.dropWhile (·.2.op.isPhi) = l := by
  cases l
  case nil => exact ⟨rfl, rfl⟩
  case cons => simp [h]

theorem Config.enter_of_noPhi (hf : f.Draft) (hb : f.Reaches b) (hn : f.NoPhi b) :
    e.enter f.trimmed b = { e with block := b, rest := f.defs (f.insts b) } := by
  have ⟨ht, hd⟩ : _ ∧ _ := takeWhile_isPhi (l := f.defs (f.insts b)) fun (v, d) hm =>
    have ⟨hv, hd⟩ := Function.mem_defs_iff.mp hm
    hn hv hd
  simp only [enter, Function.code_trimmed hf hb, ht, hd]
  rfl

theorem lookup_of_mem (hn : (incoming.map Prod.fst).Nodup) (hm : (p, v) ∈ incoming) :
    incoming.lookup p = some v := by
  have ⟨l₁, l₂, he⟩ := List.append_of_mem hm
  refine List.lookup_eq_some_iff.mpr ⟨l₁, l₂, he, fun i hi => ?_⟩
  have hne : i.1 ≠ p := by
    rw [he, List.map_append, List.nodup_append] at hn
    exact hn.2.2 i.1 (List.mem_map_of_mem hi) p (by simp)
  simpa using hne.symm

-- The only phi stands first.
theorem Config.enter_of_phi (hf : f.Draft) (hb : f.Reaches b) (hi : f.insts b = x :: values)
    (hd : f.value? x = some d) (ho : d.op = .phi incoming) (hm : (e.block, v) ∈ incoming) :
    e.enter f.trimmed b =
      { e with block := b, rest := f.defs values, env := Function.update e.env x (e.env v) } := by
  have hmerge := hf.phis (b := b) (hi ▸ .head _) hd ho
  have hl : incoming.lookup e.block = some v := lookup_of_mem hmerge.nodup hm
  have hc : f.trimmed.code b = (x, d) :: f.defs values := by
    rw [Function.code_trimmed hf hb, hi, Function.defs_cons hd]
  have hp : d.op.isPhi = true := by simp [ho, Op.isPhi]
  obtain ⟨ht, hdr⟩ : _ ∧ _ := takeWhile_isPhi (l := f.defs values) fun i hm => by
    obtain ⟨hw, hd⟩ := Function.mem_defs_iff.mp hm
    by_contra hp
    obtain ⟨_, ho⟩ := Op.eq_phi_of_isPhi (Bool.not_eq_false _ ▸ hp)
    have hfirst := (hf.phis (b := b) (hi ▸ .tail _ hw) hd ho).first
    have hn := hf.wf.nodup_insts b
    rw [hi] at hfirst hn
    exact (List.nodup_cons.mp hn).1 (Option.some.inj hfirst ▸ hw)
  simp only [enter, hc, List.takeWhile_cons, List.dropWhile_cons, hp, ↓reduceIte, ht, hdr, merge]
  congr 1
  funext w
  by_cases hw : w = x
  · simp [hw, ho, Op.source?, hl]
  · simp [hw, List.lookup_cons, beq_eq_false_iff_ne.mpr hw, Function.update_of_ne]

-- A phi has the type of the values that it takes.
theorem Function.Complete.hasType_phi {dom : Scope} {ty : Scalar} (hf : f.Complete dom)
    (hx : x ∈ f.insts b) (hd : f.value? x = some d) (ho : d.op = .phi incoming)
    (hm : (p, v) ∈ incoming) (ht : f.HasType v ty) : f.HasType x ty := by
  have ⟨d', hd', hb⟩ := hf.draft.wf.listed hx
  cases hd.symm.trans hd'
  have hfits := hf.scope.fits hd hb
  rw [ho] at hfits
  have ⟨t, htx, hi⟩ := hfits
  have htv := (hi _ hm).2.hasType
  exact ⟨d, hd, htx.trans (congrArg some (htv.unique ht))⟩

end Ssa

namespace Lowering

open Bytecode (Instruction)
open Ssa (BlockId Function Op Scope ValueId)

theorem Operand.Usable.isSome {g : Function} {dom : Scope} {b : BlockId} {o : Operand}
    (h : o.Usable g dom b) : ∀ v ∈ o.values, (g.value? v).isSome := by
  have hu {v ty} (h : g.Usable dom b v ty) : (g.value? v).isSome := by
    obtain ⟨_, hd, _⟩ := h
    simp [hd]
  cases o
  case value =>
    obtain ⟨_, hv⟩ := h
    simpa [values] using hu hv
  case comparison =>
    obtain ⟨_, hl, hr⟩ := h
    simpa [values] using ⟨hu hl, hu hr⟩

namespace Direct

variable {I : Interpretation} {cx : Context} {f g : Function} {dom dom' : Scope} {calls : List Nat}
variable {s t : State} {p : BlockId} {v : Option ValueId} {frames : List Frame}
variable {operands : List Operand} {code : List Instruction} {c : Stack.Config I} {e : Ssa.Config I}
variable {stack : List (Stack.Operand I)}

theorem Finishes.reaches (h : Finishes cx f code t) (hl : t.isDead = false) : f.Reaches t.block :=
  have ⟨_, _, hv⟩ := h.valid
  h.becomes.reaches (hv.live_iff.mp hl)

-- What was known before the block had code is no value of the block.
theorem State.Valid.not_mem_insts {b : BlockId} {u : ValueId} (hv : s.Valid cx dom calls)
    (hw : f.WellFormed) (hk : s.function.Keeps f) (hi : s.function.insts b = [])
    (hu : (s.function.value? u).isSome) : u ∉ f.insts b := by
  intro hm
  have ⟨d, hd⟩ := Option.isSome_iff_exists.mp hu
  have ⟨_, hd', hb⟩ := hw.listed hm
  have ⟨_, hk⟩ := hk.value hd
  cases hd'.symm.trans hk
  have := hv.draft.wf.lists hd hb
  simp [hi] at this

section Landing

variable (hf : f.Complete dom) (hv : s.Valid cx dom' calls) (hk : s.function.Keeps f)
variable (ha : Agrees cx f s c e)
include hf hv hk ha

theorem Lands.agrees (h : Lands cx f s.block v frames operands code t)
    (hn : v.isSome → s.function.insts t.block = []) (hs : operands ⊆ s.stack)
    (ho : List.Forall₂ (Holds f e.env) (v.toList.map .value ++ operands) stack) :
    Agrees cx f t { c with stack := stack }
      (Ssa.Config.enter f.trimmed { e with rest := [] } t.block) := by
  obtain ⟨_, _, ht⟩ := h.finishes.valid
  have hb := h.finishes.reaches h.live
  have hbe := h.finishes.becomes
  have hknown : ∀ o ∈ t.stack, ∀ v ∈ o.values, (t.function.value? v).isSome :=
    fun o ho => (ht.stack o ho).isSome
  have hslots : ∀ slot ∈ cx.locals, (t.function.value? slot.address).isSome := fun slot hs => by
    obtain ⟨_, hd, _⟩ := ht.slots slot hs
    simp [hd]
  cases h.receives
  case nothing hst hi =>
    have hn : f.NoPhi t.block := hbe.noPhi ht.isOpen.created
      (fun r hr => ht.continuation_ne_block hr) (Function.noPhi_of_insts_eq_nil hi)
    rw [Ssa.Config.enter_of_noPhi hf.draft hb hn]
    exact {
      block := rfl
      rest := by simp [State.after, show t.function.insts t.block = [] from hi]
      stack := hst ▸ ho
      locals := forall₂_stored_congr ha.locals (fun _ _ => rfl) rfl
      created := ht.isOpen.created
      known := hknown
      slots := hslots }
  case value w x d incoming hst hx hd hop hw =>
    have hd : f.value? x = some d := hbe.value hd (by simp [hop, Op.isTerminator])
    obtain ⟨more, hi⟩ : ∃ more, [x] ++ more = f.insts t.block := hx ▸ hbe.insts t.block
    have hm : x ∈ f.insts t.block := hi ▸ .head _
    have hne {u} (hu : (s.function.value? u).isSome) : u ≠ x := fun he =>
      hv.not_mem_insts hf.draft.wf hk (hn rfl) hu (he ▸ hm)
    obtain ⟨y, rest, hy, hrest, he⟩ := List.forall₂_cons_left_iff.mp ho
    subst he
    cases hy
    case value y hy hty =>
      have htx : f.HasType x y.type := hf.hasType_phi hm hd hop hw hty
      rw [Ssa.Config.enter_of_phi hf.draft hb hi.symm hd hop (ha.block ▸ hw)]
      exact {
        block := rfl
        rest := by simp [State.after, hx, ← hi]
        stack := by
          refine hst ▸ .cons (.value (by simpa using hy) htx) ?_
          refine forall₂_holds_congr hrest fun o ho u hu => ?_
          exact Function.update_of_ne (hne (ha.known o (hs ho) u hu)) ..
        locals := forall₂_stored_congr ha.locals
          (fun slot hm => Function.update_of_ne (hne (ha.slots slot hm)) ..) rfl
        created := ht.isOpen.created
        known := hknown
        slots := hslots }

end Landing

-- What stays on the stack behind a region, in both machines.
theorem Agrees.forall₂_below (h : Agrees cx f s c e) (height : Nat) :
    List.Forall₂ (Holds f e.env) (s.below height) (Stack.keep height c.stack) := by
  have hl := h.stack.length_eq
  simpa only [State.below, Stack.keep, hl] using List.forall₂_drop (c.stack.length - height) h.stack

theorem Agrees.carry {l : Stack.Label} (h : Agrees cx f s c e) (ht : v.isSome = l.type.isSome)
    (hx : ∀ x, v = some x → s.stack.head? = some (.value x)) :
    ∃ stack, l.carry c.stack = some stack ∧
      List.Forall₂ (Holds f e.env) (v.toList.map .value ++ s.below l.height) stack := by
  have hk := h.forall₂_below l.height
  cases v
  case none =>
    have ht : l.type = none := by simpa using ht
    exact ⟨_, by simp [Stack.Label.carry, ht], hk⟩
  case some x =>
    have ⟨ty, ht⟩ : ∃ ty, l.type = some ty := Option.isSome_iff_exists.mp ht.symm
    have ⟨rest, hs⟩ : ∃ rest, s.stack = .value x :: rest := List.head?_eq_some_iff.mp (hx x rfl)
    have ⟨y, stack, hc, hy, hty, _⟩ := h.pop_value hs
    exact ⟨_, by simp [Stack.Label.carry, ht, hc], .cons (.value hy hty) (hc ▸ hk)⟩

-- The active block of state `s` is closed in state `t`.
structure State.Closes (s t : State) (op : Op) : Prop where
  insts : ∃ v, t.function.insts s.block = s.function.insts s.block ++ [v]
  terminator : t.function.terminator? s.block = some op

section Terminator

variable {op op' : Op} {l : List Region} (hc : s.Closes t op) (hb : Becomes t.function f l)
variable (ht : f.terminator? s.block = some op') (ha : Agrees cx f s c e)
include hc hb ht ha

theorem Agrees.step_terminator : ∃ v d, d.op = op' ∧
    e.step f.trimmed = Ssa.Config.execute f.trimmed { e with rest := [] } v d := by
  have ⟨v, hv⟩ := hc.insts
  have ⟨hi, _⟩ := hb.closed hc.terminator
  have ⟨v', d, hlast, hd, hop, _⟩ := Function.terminator?_eq_some_iff.mp ht
  obtain rfl : v = v' := by simpa [hi, hv] using hlast
  have hr : e.rest = [(v, d)] := by
    rw [ha.rest, State.after, hi, hv, List.drop_left' rfl, Function.defs_cons hd]
    rfl
  exact ⟨v, d, hop, by simp only [Ssa.Config.step, hr]⟩

theorem Agrees.step_jump {target : BlockId} (ho : op' = .jump target) :
    e.step f.trimmed = some (pure (.run (Ssa.Config.enter f.trimmed { e with rest := [] } target))) := by
  have ⟨_, _, hop, hs⟩ := ha.step_terminator hc hb ht
  rw [hs, Ssa.Config.execute, hop, ho]

theorem Agrees.step_branch {lhs rhs : ValueId} {cond : Comparison} {yes no : BlockId}
    {x y : I.Value} {ty : Scalar} (ho : op' = .branch lhs cond rhs yes no)
    (hx : e.env lhs = some (.value x)) (hy : e.env rhs = some (.value y)) (hty : f.HasType lhs ty) :
    e.step f.trimmed = some (I.compare ty cond x y >>= fun taken => pure (.run
      (Ssa.Config.enter f.trimmed { e with rest := [] } (if taken then yes else no)))) := by
  have ⟨_, _, hop, hs⟩ := ha.step_terminator hc hb ht
  have hx : Ssa.Config.read { e with rest := [] } lhs = some x := read_eq hx
  have hy : Ssa.Config.read { e with rest := [] } rhs = some y := read_eq hy
  have ht : f.trimmed.type? lhs = some ty := hty.type?_eq
  rw [hs, Ssa.Config.execute, hop, ho]
  simp only [hx, hy, ht, Option.bind_eq_bind, Option.bind_some]
  exact congrArg some (bind_congr fun taken => by cases taken <;> rfl)

end Terminator

end Direct

end Lowering

end StackCompiler
