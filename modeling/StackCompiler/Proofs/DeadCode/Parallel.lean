import StackCompiler.Proofs.DeadCode.Idle
import StackCompiler.Proofs.Typing.Regions

-- Two lowerings side by side, whose live code is the same up to a renaming. What an instruction does
-- to both keeps it so.

namespace StackCompiler.Lowering

open Bytecode (Instruction)
open Ssa (BlockId Function Op Renaming Scope ValueId)

inductive Operand.Renamed (ρ : Renaming) : Operand → Operand → Prop
  | value {v w : ValueId} (h : ρ.value v w) : Renamed ρ (.value v) (.value w)
  | comparison {l l' r r' : ValueId} (cond : Comparison) (hl : ρ.value l l') (hr : ρ.value r r') :
    Renamed ρ (.comparison l cond r) (.comparison l' cond r')

structure Result.Renamed (ρ : Renaming) (res res' : Result) : Prop where
  type : res'.type = res.type
  incoming : List.Forall₂ (fun i j => ρ.block i.1 j.1 ∧ ρ.value i.2 j.2) res.incoming res'.incoming

inductive RegionKind.Renamed (ρ : Renaming) : RegionKind → RegionKind → Prop
  | block : Renamed ρ .block .block
  | loop {h h' : BlockId} (hh : ρ.block h h') : Renamed ρ (.loop h) (.loop h')
  | if_ {breaks breaks' : List BlockId} (hb : List.Forall₂ ρ.block breaks breaks') :
    Renamed ρ (.if_ breaks) (.if_ breaks')
  | else_ : Renamed ρ .else_ .else_

structure Slot.Renamed (ρ : Renaming) (slot slot' : Slot) : Prop where
  type : slot'.type = slot.type
  address : ρ.value slot.address slot'.address

section Mono

variable {ρ σ : Renaming} (hle : ρ ≤ σ)
include hle

theorem Operand.Renamed.mono {o o' : Operand} (h : o.Renamed ρ o') : o.Renamed σ o' := by
  cases h
  case value h => exact .value (hle.1 _ _ h)
  case comparison hl hr => exact .comparison _ (hle.1 _ _ hl) (hle.1 _ _ hr)

theorem Result.Renamed.mono {res res' : Result} (h : res.Renamed ρ res') : res.Renamed σ res' :=
  ⟨h.type, h.incoming.imp fun _ _ h => ⟨hle.2 _ _ h.1, hle.1 _ _ h.2⟩⟩

theorem RegionKind.Renamed.mono {k k' : RegionKind} (h : k.Renamed ρ k') : k.Renamed σ k' := by
  cases h
  case block => exact .block
  case loop h => exact .loop (hle.2 _ _ h)
  case if_ h => exact .if_ (h.imp hle.2)
  case else_ => exact .else_

theorem Slot.Renamed.mono {slot slot' : Slot} (h : slot.Renamed ρ slot') : slot.Renamed σ slot' :=
  ⟨h.type, hle.1 _ _ h.address⟩

end Mono

namespace Direct

structure Region.Renamed (ρ : Renaming) (r r' : Region) : Prop where
  kind : r.kind.Renamed ρ r'.kind
  continuation : ρ.block r.continuation r'.continuation
  result : Option.Rel (Result.Renamed ρ) r.result r'.result
  height : r'.height = r.height
  isLive : r'.isLive = r.isLive

structure Context.Renamed (ρ : Renaming) (cx cx' : Context) : Prop where
  globals : cx'.globals = cx.globals
  callees : cx'.callees = cx.callees
  result : cx'.result = cx.result
  locals : List.Forall₂ (Slot.Renamed ρ) cx.locals cx'.locals

variable {cx cx' : Context} {dom dom' : Scope} {calls calls' : List Nat} {s s' t t' u : State}
variable {ρ σ : Renaming} {r r' : Region} {op op' : Op} {name : String} {type : Option Scalar}
variable {v w : ValueId} {rest rest' : List Operand} {i : Instruction} {outer outer' : List Region}

section Mono

variable (hle : ρ ≤ σ)
include hle

theorem Region.Renamed.mono (h : r.Renamed ρ r') : r.Renamed σ r' where
  kind := h.kind.mono hle
  continuation := hle.2 _ _ h.continuation
  result := Ssa.rel_mono (fun _ _ => .mono hle) h.result
  height := h.height
  isLive := h.isLive

theorem Context.Renamed.mono (h : cx.Renamed ρ cx') : cx.Renamed σ cx' :=
  ⟨h.globals, h.callees, h.result, h.locals.imp fun _ _ => .mono hle⟩

end Mono

theorem Context.Renamed.slot {index : Nat} {slot slot' : Slot} (hc : cx.Renamed ρ cx')
    (h : cx.locals[index]? = some slot) (h' : cx'.locals[index]? = some slot') :
    slot.Renamed ρ slot' := by
  obtain ⟨_, he, hr⟩ := Ssa.rel_of_some (forall₂_getElem? hc.locals index) h
  cases h'.symm.trans he
  exact hr

namespace State

-- Both states are those of code that is live, or just about to be.
structure Parallel (ρ : Renaming) (s t : State) : Prop where
  function : s.function.Matches ρ t.function
  isEnded : t.isEnded = s.isEnded
  block : ρ.block s.block t.block
  stack : List.Forall₂ (Operand.Renamed ρ) s.stack t.stack
  regions : List.Forall₂ (Region.Renamed ρ) s.regions t.regions

-- Both states are those of dead code, in the same live regions.
structure Apart (ρ : Renaming) (s t : State) : Prop where
  function : s.function.Matches ρ t.function
  isEnded : t.isEnded = s.isEnded
  regions : List.Forall₂ (Region.Renamed ρ) s.live t.live
  below : List.Forall₂ (Operand.Renamed ρ) (s.below s.base) (t.below t.base)

inductive Alike (ρ : Renaming) (s t : State) : Prop
  | live (hs : s.isDead = false) (ht : t.isDead = false) (h : Parallel ρ s t)
  | dead (hs : s.isDead = true) (ht : t.isDead = true) (hn : t.deadDepth = s.deadDepth)
    (h : Apart ρ s t)

-- Live code can be added to the active block.
structure Active (s : State) : Prop extends Ready s where
  reaches : s.function.Reaches s.block

theorem Valid.active (hv : s.Valid cx dom calls) (hd : s.isDead = false) : s.Active :=
  ⟨hv.ready, hv.live_iff.mp hd⟩

theorem Active.emit (h : s.Active) (ht : op.isTerminator = false) : (s.emit name type op).Active :=
  ⟨h.toReady.emit ht, (h.wf.emit_reaches_iff_of_not_isTerminator h.isOpen ht).mpr h.reaches⟩

theorem Active.pop (h : s.Active) : (s.pop rest).Active :=
  ⟨⟨h.wf, h.isOpen⟩, h.reaches⟩

theorem Active.journal {j : Journal} (h : s.Active) : ({ s with journal := j } : State).Active :=
  ⟨⟨h.wf, h.isOpen⟩, h.reaches⟩

theorem Active.address {n : Nat} (h : s.Active) : (s.address v n).Active :=
  (h.emit rfl).emit rfl

theorem Active.grow (h : s.Active) : s.grow.Active :=
  ⟨h.toReady.grow, (Function.addBlock_reaches_iff h.reaches.entry_isSome).mpr h.reaches⟩

namespace Parallel

variable (h : s.Parallel ρ t)
include h

theorem pop (hr : List.Forall₂ (Operand.Renamed ρ) rest rest') : (s.pop rest).Parallel ρ (t.pop rest') :=
  ⟨h.function, h.isEnded, h.block, hr, h.regions⟩

theorem pop_value (hs : s.stack = .value v :: rest) (ht : t.stack = .value w :: rest') :
    ρ.value v w ∧ List.Forall₂ (Operand.Renamed ρ) rest rest' := by
  have hk := h.stack
  rw [hs, ht] at hk
  cases hk
  case cons hv hr =>
    cases hv
    case value hv => exact ⟨hv, hr⟩

theorem pop_values {v' w' : ValueId} (hs : s.stack = .value v :: .value v' :: rest)
    (ht : t.stack = .value w :: .value w' :: rest') :
    ρ.value v w ∧ ρ.value v' w' ∧ List.Forall₂ (Operand.Renamed ρ) rest rest' := by
  obtain ⟨hv, hr⟩ := h.pop_value hs ht
  cases hr
  case cons hv' hr =>
    cases hv'
    case value hv' => exact ⟨hv, hv', hr⟩

theorem journal {j j' : Journal} :
    ({ s with journal := j } : State).Parallel ρ { t with journal := j' } :=
  ⟨h.function, h.isEnded, h.block, h.stack, h.regions⟩

theorem grow (hs : s.Active) (ht : t.Active) :
    s.grow.Parallel (ρ.addBlock s.function.freshBlock t.function.freshBlock) t.grow where
  function := h.function.addBlock hs.reaches.entry_isSome ht.reaches.entry_isSome
  isEnded := h.isEnded
  block := .inl h.block
  stack := h.stack.imp fun _ _ => .mono (ρ.le_addBlock ..)
  regions := h.regions.imp fun _ _ => .mono (ρ.le_addBlock ..)

section Emit

variable (hs : s.Active) (ht : t.Active) (ho : op.Renamed ρ op') (hn : op.isTerminator = false)
include hs ht ho hn

theorem emit : (s.emit name type op).Parallel
    (ρ.addValue s.function.freshValue t.function.freshValue) (t.emit name type op') where
  function := h.function.emit hs.wf hs.isOpen ht.isOpen h.block hs.reaches ho fun _ hb => by
    simp [Op.successors_eq_nil_of_not_isTerminator hn] at hb
  isEnded := h.isEnded
  block := h.block
  stack := h.stack.imp fun _ _ => .mono (ρ.le_addValue ..)
  regions := h.regions.imp fun _ _ => .mono (ρ.le_addValue ..)

theorem yield {ty : Scalar} : (s.yield name ty op).Parallel
    (ρ.addValue s.function.freshValue t.function.freshValue) (t.yield name ty op') := by
  have he : (s.emit name (some ty) op).Parallel _ (t.emit name (some ty) op') := h.emit hs ht ho hn
  exact he.pop (.cons (.value (ρ.addValue_self ..)) he.stack)

end Emit

theorem pop_args {args args' : List ValueId} (hl : args.length = args'.length)
    (hs : s.stack = args.reverse.map Operand.value ++ rest)
    (ht : t.stack = args'.reverse.map Operand.value ++ rest') :
    List.Forall₂ ρ.value args args' ∧ List.Forall₂ (Operand.Renamed ρ) rest rest' := by
  have hk := h.stack
  rw [hs, ht] at hk
  have ha := List.forall₂_take args.length hk
  have hr := List.forall₂_drop args.length hk
  rw [List.take_left' (by simp), List.take_left' (by simp [hl]), List.forall₂_map_left_iff,
    List.forall₂_map_right_iff, List.forall₂_reverse_iff] at ha
  rw [List.drop_left' (by simp), List.drop_left' (by simp [hl])] at hr
  refine ⟨ha.imp fun _ _ hv => ?_, hr⟩
  cases hv
  case value hv => exact hv

-- The address is that of the last instruction.
theorem address {n : Nat} (hs : s.Active) (ht : t.Active) (hv : ρ.value v w) :
    ∃ σ, ρ ≤ σ ∧ (s.address v n).Parallel σ (t.address w n) ∧
      σ.value (s.offset n).function.freshValue (t.offset n).function.freshValue := by
  have hle := ρ.le_addValue s.function.freshValue t.function.freshValue
  refine ⟨_, hle.trans (Renaming.le_addValue ..), ?_, Renaming.addValue_self ..⟩
  exact (h.emit hs ht (.const _) rfl).emit (hs.emit rfl) (ht.emit rfl)
    (.binary _ (.inl hv) (ρ.addValue_self ..)) rfl

-- Both take the same operands and add the same code.
theorem computes (hc : cx.Renamed ρ cx') (hs : s.Active) (ht : t.Active)
    (h₁ : s.Computes cx i s') (h₂ : t.Computes cx' i t') : ∃ σ, ρ ≤ σ ∧ s'.Parallel σ t' := by
  have hle := ρ.le_addValue s.function.freshValue t.function.freshValue
  have hfresh := ρ.addValue_self s.function.freshValue t.function.freshValue
  cases h₁
  case binary hk =>
    cases h₂
    case binary hk' =>
      obtain ⟨hr, hl, hrest⟩ := h.pop_values hk hk'
      exact ⟨_, hle, (h.pop hrest).yield hs.pop ht.pop (.binary _ hl hr) rfl⟩
  case compare hk _ =>
    cases h₂
    case compare hk' _ =>
      obtain ⟨hr, hl, hrest⟩ := h.pop_values hk hk'
      exact ⟨_, le_rfl, h.pop (.cons (.comparison _ hl hr) hrest)⟩
  case eqz hk _ =>
    cases h₂
    case eqz hk' _ =>
      obtain ⟨hv, hrest⟩ := h.pop_value hk hk'
      refine ⟨_, hle, (h.emit hs ht (.const _) rfl).pop ?_⟩
      exact .cons (.comparison _ (.inl hv) hfresh) (hrest.imp fun _ _ => .mono hle)
  case neg hk =>
    cases h₂
    case neg hk' =>
      obtain ⟨hv, hrest⟩ := h.pop_value hk hk'
      exact ⟨_, hle, (h.pop hrest).yield hs.pop ht.pop (.neg hv) rfl⟩
  case floor hk _ =>
    cases h₂
    case floor hk' _ =>
      obtain ⟨hv, hrest⟩ := h.pop_value hk hk'
      exact ⟨_, hle.trans (Renaming.le_addValue ..), ((h.pop hrest).emit hs.pop ht.pop (.cast hv) rfl)
        |>.yield (hs.pop.emit rfl) (ht.pop.emit rfl) (.cast hfresh) rfl⟩
  case const =>
    cases h₂
    case const => exact ⟨_, hle, h.yield hs ht (.const _) rfl⟩
  case localGet hl =>
    cases h₂
    case localGet hl' =>
      have hslot := hc.slot hl hl'
      rw [hslot.type]
      exact ⟨_, hle, h.yield hs ht (.load hslot.address) rfl⟩
  case localSet hl hk _ =>
    cases h₂
    case localSet hk' _ hl' =>
      obtain ⟨hv, hrest⟩ := h.pop_value hk hk'
      have hslot := hc.slot hl hl'
      exact ⟨_, hle, (h.pop hrest).emit hs.pop ht.pop (.store hv hslot.address) rfl⟩
  case localTee hl hk _ =>
    cases h₂
    case localTee hk' _ hl' =>
      obtain ⟨hv, hrest⟩ := h.pop_value hk hk'
      have hslot := hc.slot hl hl'
      refine ⟨_, hle, ((h.pop hrest).emit hs.pop ht.pop (.store hv hslot.address) rfl).pop ?_⟩
      exact .cons (.value (.inl hv)) (hrest.imp fun _ _ => .mono hle)
  case globalGet hg =>
    cases h₂
    case globalGet hg' =>
      cases hg.symm.trans (hc.globals ▸ hg')
      exact ⟨_, hle.trans (Renaming.le_addValue ..), (h.emit hs ht (.globalAddr _) rfl)
        |>.yield (hs.emit rfl) (ht.emit rfl) (.load hfresh) rfl⟩
  case globalSet hg hk _ =>
    cases h₂
    case globalSet hk' _ hg' =>
      cases hg.symm.trans (hc.globals ▸ hg')
      obtain ⟨hv, hrest⟩ := h.pop_value hk hk'
      exact ⟨_, hle.trans (Renaming.le_addValue ..), ((h.pop hrest).emit hs.pop ht.pop (.globalAddr _) rfl)
        |>.emit (hs.pop.emit rfl) (ht.pop.emit rfl) (.store (.inl hv) hfresh) rfl⟩
  case load hk =>
    cases h₂
    case load hk' =>
      obtain ⟨hv, hrest⟩ := h.pop_value hk hk'
      obtain ⟨σ, hσ, haddr, ha⟩ := (h.pop hrest).address hs.pop ht.pop hv
      exact ⟨_, hσ.trans (σ.le_addValue ..), haddr.yield hs.pop.address ht.pop.address (.load ha) rfl⟩
  case store hk _ =>
    cases h₂
    case store hk' _ =>
      obtain ⟨hv, hb, hrest⟩ := h.pop_values hk hk'
      obtain ⟨σ, hσ, haddr, ha⟩ := (h.pop hrest).address hs.pop ht.pop hb
      exact ⟨_, hσ.trans (σ.le_addValue ..),
        haddr.emit hs.pop.address ht.pop.address (.store (hσ.1 _ _ hv) ha) rfl⟩
  case call _ result _ _ _ hcallee hres hk hlen =>
    cases h₂
    case call hres' hk' hlen' hcallee' =>
      cases hcallee.symm.trans (hc.callees ▸ hcallee')
      cases hres.symm.trans hres'
      obtain ⟨hargs, hrest⟩ := h.pop_args (hlen.trans hlen'.symm) hk hk'
      refine ⟨_, hle, ((h.emit hs ht (.call _ _ hargs) rfl).pop ?_).journal⟩
      refine List.rel_append ?_ (hrest.imp fun _ _ => .mono hle)
      cases result
      case none => exact .nil
      case some => exact .cons (.value hfresh) .nil
  case drop hk =>
    cases h₂
    case drop hk' =>
      have hstack := h.stack
      rw [hk, hk'] at hstack
      cases hstack
      case cons hrest => exact ⟨ρ, le_rfl, h.pop hrest⟩
  case nop =>
    cases h₂
    case nop => exact ⟨ρ, le_rfl, h⟩

-- Both compare the same operands.
theorem decides {lhs lhs' rhs rhs' : ValueId} {cond cond' : Comparison} (hs : s.Active) (ht : t.Active)
    (h₁ : s.Decides lhs cond rhs s') (h₂ : t.Decides lhs' cond' rhs' t') :
    ∃ σ, ρ ≤ σ ∧ s'.Parallel σ t' ∧ cond' = cond ∧ σ.value lhs lhs' ∧ σ.value rhs rhs' := by
  have hk := h.stack
  cases h₁
  case comparison hk₁ =>
    cases h₂
    case comparison hk₂ =>
      rw [hk₁, hk₂] at hk
      cases hk
      case cons ho hrest =>
        cases ho
        case comparison hl hr => exact ⟨ρ, le_rfl, h.pop hrest, rfl, hl, hr⟩
    case value hk₂ _ =>
      rw [hk₁, hk₂] at hk
      cases hk
      case cons ho _ => cases ho
  case value hk₁ hty =>
    cases h₂
    case comparison hk₂ =>
      rw [hk₁, hk₂] at hk
      cases hk
      case cons ho _ => cases ho
    case value hk₂ hty' =>
      obtain ⟨hv, hrest⟩ := h.pop_value hk₁ hk₂
      cases ((h.function.hasType_iff hv).mp hty).unique hty'
      exact ⟨_, ρ.le_addValue .., (h.pop hrest).emit hs.pop ht.pop (.const _) rfl, rfl, .inl hv,
        ρ.addValue_self ..⟩

end Parallel

theorem forall₂_below (h : List.Forall₂ (Operand.Renamed ρ) s.stack t.stack) (k : Nat) :
    List.Forall₂ (Operand.Renamed ρ) (s.below k) (t.below k) := by
  rw [below, below, h.length_eq]
  exact List.forall₂_drop _ h

theorem forall₂_live (h : List.Forall₂ (Region.Renamed ρ) s.regions t.regions) :
    List.Forall₂ (Region.Renamed ρ) s.live t.live := by
  unfold live
  generalize s.regions = l at h ⊢
  generalize t.regions = l' at h ⊢
  induction h
  case nil => exact .nil
  case cons r r' _ _ hr _ hi =>
    rw [List.filter_cons, List.filter_cons, hr.isLive]
    split
    case isTrue => exact .cons hr hi
    case isFalse => exact hi

theorem deadDepth_congr (h : List.Forall₂ (Region.Renamed ρ) s.regions t.regions) :
    t.deadDepth = s.deadDepth := by
  unfold deadDepth
  generalize s.regions = l at h ⊢
  generalize t.regions = l' at h ⊢
  induction h
  case nil => rfl
  case cons hr _ hi => rw [List.countP_cons, List.countP_cons, hr.isLive, hi]

theorem base_congr (h : List.Forall₂ (Region.Renamed ρ) s.live t.live) : t.base = s.base := by
  unfold base
  generalize s.live = l at h ⊢
  generalize t.live = l' at h ⊢
  cases h
  case nil => rfl
  case cons hr _ => simp [hr.height]

theorem Apart.of_stack (hf : s.function.Matches ρ t.function) (he : t.isEnded = s.isEnded)
    (hk : List.Forall₂ (Operand.Renamed ρ) s.stack t.stack)
    (hr : List.Forall₂ (Region.Renamed ρ) s.regions t.regions) : s.Apart ρ t where
  function := hf
  isEnded := he
  regions := forall₂_live hr
  below := by
    rw [base_congr (forall₂_live hr)]
    exact forall₂_below hk _

-- Dead code in one of the two changes nothing.
theorem Apart.idle_left (h : s.Apart ρ t) (hi : s.Idles s') : s'.Apart ρ t where
  function := h.function.spare_left hi.function
  isEnded := h.isEnded.trans hi.isEnded.symm
  regions := hi.live ▸ h.regions
  below := by
    have hb : s'.base = s.base := by rw [base, base, hi.live]
    rw [hb, hi.below]
    exact h.below

theorem Apart.idle_right (h : s.Apart ρ t) (hi : t.Idles t') : s.Apart ρ t' where
  function := h.function.spare_right hi.function
  isEnded := hi.isEnded.trans h.isEnded
  regions := hi.live ▸ h.regions
  below := by
    have hb : t'.base = t.base := by rw [base, base, hi.live]
    rw [hb, hi.below]
    exact h.below

-- Whether code is live depends on the paths to it, and these are the same.
theorem Parallel.alike (h : s.Parallel ρ t) (hv : s.Valid cx dom calls)
    (hv' : t.Valid cx' dom' calls') : s.Alike ρ t := by
  have hiff : s.isDead = false ↔ t.isDead = false :=
    hv.live_iff.trans ((h.function.reaches_iff h.block).trans hv'.live_iff.symm)
  cases hd : s.isDead
  case false => exact .live hd (hiff.mp hd) h
  case true =>
    refine .dead hd ?_ (deadDepth_congr h.regions) (.of_stack h.function h.isEnded h.stack h.regions)
    rwa [← Bool.not_eq_false, ← hiff, Bool.not_eq_false]

theorem Alike.journal {j j' : Journal} (h : s.Alike ρ t) :
    ({ s with journal := j } : State).Alike ρ { t with journal := j' } := by
  cases h
  case live hs ht h => exact .live hs ht h.journal
  case dead hs ht hn h => exact .dead hs ht hn ⟨h.function, h.isEnded, h.regions, h.below⟩

end State

end Direct

end StackCompiler.Lowering
