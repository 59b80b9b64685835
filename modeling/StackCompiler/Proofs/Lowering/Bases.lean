import StackCompiler.Proofs.DeadCode.Removal
import StackCompiler.Proofs.Typing.Bracketing

-- Every region stands on the operands that were on the stack when it was entered. They stay where they
-- are up to its end, and no more than its result is put on them, in live and in dead code.

namespace StackCompiler

open Bytecode (BlockType Instruction)

-- The block type of the region that an instruction opens.
def Bytecode.Instruction.opens? : Instruction → Option BlockType
  | .block type | .loop type | .if_ type => some type
  | _ => none

-- What stands between the first and the last instruction of a region.
inductive Typing.Encloses : Instruction → List Instruction → Prop
  | whole {i : Instruction} {inner : List Instruction} (hi : Nested inner) : Encloses i inner
  | turned {type : BlockType} {inner other : List Instruction} (hi : Nested inner)
    (ho : Nested other) : Encloses (.if_ type) (inner ++ Instruction.else_ :: other)

namespace Lowering

open Typing (Encloses Nested)

namespace Direct

open Ssa (BlockId Function Op Scope ValueId)

variable {cx : Context} {dom : Scope} {calls : List Nat} {s t u w : State} {i : Instruction}
variable {base : List Operand} {type : BlockType} {ty : Option Scalar} {outer : List Frame}
variable {function opcode : String} {total position h : Nat} {code inner other : List Instruction}

-- The operands `base` are what instruction `i`, which opens a region, leaves of the stack. It pops the
-- condition of an `if`, which dead code makes up where there is none.
def State.Founds (s : State) (i : Instruction) (base : List Operand) : Prop :=
  match i with
  | .if_ _ => (∃ condition, s.stack = condition :: base) ∨
    s.isDead = true ∧ s.stack.length = s.floor ∧ base = s.stack
  | _ => base = s.stack

-- A region of that type has ended on top of `base`.
def State.Delivers (s : State) (base : List Operand) : BlockType → Prop
  | .empty => s.stack = base
  | .value type => ∃ v, s.stack = .value v :: base ∧ s.function.HasType v type.scalar
  | .signature _ => False

-- The open regions stay, and so do the operands on which the innermost one stands.
structure State.Rests (s t : State) : Prop where
  regions : t.regions.map Region.frame = s.regions.map Region.frame
  below : ∀ h ≤ s.floor, t.below h = s.below h

-- The innermost region stands on `base`, inside of `outer`.
structure State.Based (base : List Operand) (ty : Option Scalar) (outer : List Frame) (s : State) :
    Prop where
  regions : ∃ r rest, s.regions = r :: rest ∧ r.result.map Result.type = ty ∧
    r.height = base.length ∧ rest.map Region.frame = outer
  below : s.below base.length = base

theorem State.Rests.refl (s : State) : s.Rests s :=
  ⟨rfl, fun _ _ => rfl⟩

theorem State.Rests.trans (h₁ : s.Rests t) (h₂ : t.Rests u) : s.Rests u where
  regions := h₂.regions.trans h₁.regions
  below h hh := (h₂.below h (State.floor_congr h₁.regions ▸ hh)).trans (h₁.below h hh)

theorem State.Advances.rests (a : s.Advances t) : s.Rests t :=
  ⟨congrArg _ a.regions, a.below⟩

theorem State.Based.floor (hb : s.Based base ty outer) : s.floor = base.length := by
  obtain ⟨r, rest, hr, -, hh, -⟩ := hb.regions
  rw [State.floor, hr]
  exact hh

theorem State.Based.rests (hb : s.Based base ty outer) (hr : s.Rests t) : t.Based base ty outer := by
  obtain ⟨r, rest, hs, hty, hh, ho⟩ := hb.regions
  have hm := hr.regions
  rw [hs, List.map_cons] at hm
  obtain ⟨r', rest', ht, hf, ho'⟩ := List.map_eq_cons_iff.mp hm
  refine ⟨⟨r', rest', ht, ?_, (Region.height_congr hf).trans hh, ho'.trans ho⟩, ?_⟩
  · exact (congrArg Frame.type hf).trans hty
  · exact (hr.below _ hb.floor.ge).trans hb.below

theorem State.Moves.rests (h : s.Moves t 0 []) : s.Rests t := by
  obtain ⟨kept, ht, hk⟩ := h.kept
  rw [List.drop_zero] at hk
  refine ⟨?_, h.below⟩
  rw [ht, List.nil_append]
  exact Region.map_frame_of_later hk

theorem State.hasType_receive (s : State) (res : Result) :
    (s.receive (some res)).function.HasType s.function.freshValue res.type := by
  simp only [State.receive]
  split
  · exact ⟨_, Function.emit_value?_freshValue, rfl⟩
  · exact ⟨_, Function.emit_value?_freshValue, rfl⟩

section Steps

variable (hv : s.Valid cx dom calls)
include hv

-- Instructions that stay in their region.
theorem step_rests (hi : i.isPlain = true) : Meets (step cx i) s fun _ t => s.Rests t := by
  cases i
  case br =>
    refine (branch_meets hv).mono fun _ t h => ?_
    rcases h with ⟨_, rfl⟩ | ⟨hd, hl⟩
    · exact .refl _
    · exact (hl.moves hv hd).rests
  case brIf =>
    refine (branchIf_meets hv).mono fun _ t h => ?_
    obtain ⟨lhs, cond, rhs, u, _, hi, ⟨ty, hl, hr⟩, hor⟩ := h
    rcases hor with ⟨_, rfl⟩ | ⟨hd, hf⟩
    · exact hi.advances.rests
    · exact hi.advances.rests.trans (hf.moves hi.valid hd hl hr).rests
  case return_ =>
    refine (return_meets hv).mono fun _ t h => ?_
    rcases h with ⟨_, rfl⟩ | ⟨hd, hl⟩
    · exact .refl _
    · exact (hl.moves hv hd).rests
  case block | loop | if_ | else_ | end_ => cases hi
  all_goals exact (step_inside_meets hv trivial).mono fun _ _ h => h.advances.rests

-- A condition that dead code makes up was not on the stack.
theorem popOperand_founds : Meets (popOperand opcode) s fun _ t => s.Founds (.if_ type) t.stack := by
  simp only [popOperand, meets_bind, meets_get, meets_ite]
  refine ⟨fun hf => ⟨fun hd => ?dead, fun _ => trivial⟩, fun _ => ?live⟩
  case dead =>
    refine (append_meets hv ⟨rfl, rfl, rfl⟩ .const).mono fun _ t h => ?_
    obtain ⟨-, rfl, -⟩ := h
    exact .inr ⟨hd, Nat.le_antisymm hf hv.floor_le, rfl⟩
  case live =>
    split
    case h_1 => trivial
    case h_2 top rest hs => exact .inl ⟨top, hs⟩

theorem popCondition_founds :
    Meets (popCondition opcode) s fun _ t => s.Founds (.if_ type) t.stack := by
  simp only [popCondition, meets_bind]
  have hfounds : Meets (popOperand opcode) s fun _ t => s.Founds (.if_ type) t.stack :=
    popOperand_founds hv
  refine ((popOperand_meets hv).and hfounds).mono fun o t h => ?_
  obtain ⟨⟨hi, ho⟩, hs⟩ := h
  cases o
  case comparison => exact hs
  case value v =>
    obtain ⟨ty, hu⟩ := ho
    simp only [meets_bind, typeOf_meets hu, meets_ite, meets_pure]
    refine ⟨fun _ => trivial, fun _ => ?_⟩
    refine (append_meets hi.valid ⟨rfl, rfl, rfl⟩ .const).mono fun _ u h => ?_
    obtain ⟨-, rfl, -⟩ := h
    exact hs

theorem step_opens (hi : i.opens? = some type) : Meets (step cx i) s fun _ t =>
    s.Founds i t.stack ∧ (∀ h ≤ s.floor, t.below h = s.below h) ∧
    ∃ result, resultOf type = .ok result ∧
      t.Based t.stack (result.map Result.type) (s.regions.map Region.frame) := by
  have based {u : State} {kind op result} (hr : u.regions = s.regions) :
      (u.enter kind op result).Based (u.enter kind op result).stack (result.map Result.type)
        (s.regions.map Region.frame) :=
    ⟨⟨_, _, rfl, rfl, rfl, congrArg _ hr⟩, by simp [State.below]⟩
  cases i
  case block =>
    cases hi
    refine (startBlock_meets hv).mono fun _ t h => ?_
    obtain ⟨result, hr, rfl⟩ := h
    exact ⟨rfl, fun _ _ => rfl, result, hr, based rfl⟩
  case loop =>
    cases hi
    refine (startLoop_meets hv).mono fun _ t h => ?_
    obtain ⟨result, hr, rfl⟩ := h
    exact ⟨rfl, fun _ _ => rfl, result, hr, based rfl⟩
  case if_ =>
    cases hi
    refine (startIf_meets hv).mono fun _ t h => ?_
    obtain ⟨lhs, cond, rhs, u, result, hx, hi, _, hr, rfl⟩ := h
    have hs : s.Founds (.if_ type) u.stack := (popCondition_founds hv).of_ok hx
    exact ⟨hs, hi.advances.below, result, hr, based hi.advances.regions⟩
  all_goals cases hi

-- An `else` goes back to the base of its region.
theorem startElse_based (hb : s.Based base ty outer) :
    Meets startElse s fun _ t => t.stack = base ∧ t.Based base ty outer := by
  refine (startElse_meets hv).mono fun _ t h => ?_
  obtain ⟨r, rest, breaks, op, after, g, hr, _, he, _, rfl⟩ := h
  obtain ⟨r', rest', hr', hty, hh, ho⟩ := hb.regions
  cases hr.symm.trans hr'
  have hs : (s.turn r rest after g).stack = base := by
    rw [State.turn, hh]
    exact hb.below
  refine ⟨hs, ⟨_, rest, rfl, he.map_type.trans hty, hh, ho⟩, ?_⟩
  rw [State.below, hs, Nat.sub_self, List.drop_zero]

-- Only the result is left on the base when a region ends.
theorem close_based {result : Option Result} (hb : s.Based base (result.map Result.type) outer)
    (ht : resultOf type = .ok result) :
    Meets close s fun _ t => t.regions.map Region.frame = outer ∧ t.Delivers base type := by
  refine (close_meets hv).mono fun _ t h => ?_
  obtain ⟨r, rest, hr, hty, hh, ho⟩ := hb.regions
  rcases h with ⟨hn, _⟩ | ⟨r', rest', op, after, hr', _, he, rfl⟩
  · cases hn.symm.trans hr
  · cases hr.symm.trans hr'
    have hs : (s.resume r rest op).stack = base := by
      rw [State.resume, hh]
      exact hb.below
    refine ⟨by rw [State.receive_regions]; exact ho, ?_⟩
    have hafter := he.map_type.trans hty
    cases type
    case signature => cases ht
    case empty =>
      cases ht
      cases Option.map_eq_none_iff.mp hafter
      exact hs
    case value type =>
      cases ht
      obtain ⟨res, rfl, htype⟩ := Option.map_eq_some_iff.mp hafter
      refine ⟨(s.resume r rest op).function.freshValue, ?_, ?_⟩
      · rw [State.receive_stack, hs]
        rfl
      · have ht : res.type = type.scalar := htype
        exact ht ▸ State.hasType_receive _ res

end Steps

-- What keeps the lowest operands has not made the stack lower.
theorem State.le_length_of_below (hh : h ≤ s.stack.length) (hb : t.below h = s.below h) :
    h ≤ t.stack.length := by
  have hl := congrArg List.length hb
  rw [length_below hh, State.below, List.length_drop] at hl
  omega

theorem State.Delivers.below (hd : t.Delivers w.stack type) (hh : h ≤ w.stack.length) :
    t.below h = w.below h := by
  cases type
  case empty => rw [State.below, State.below, show t.stack = w.stack from hd]
  case value type =>
    obtain ⟨v, hs, _⟩ := hd
    rw [State.below, hs]
    exact State.below_cons (s := w) hh
  case signature => exact hd.elim

section Runs

-- Code that leaves its regions and their base as they are.
def Resting (cx : Context) (function : String) (total : Nat) (code : List Instruction) : Prop :=
  ∀ ⦃s t position dom calls⦄, s.Valid cx dom calls →
    lowerCode cx function total position code s = .ok () t → s.Rests t

-- Code that comes back to the base of its region.
def Grounded (cx : Context) (function : String) (total : Nat) (code : List Instruction) : Prop :=
  ∀ ⦃s t position dom calls base ty outer⦄, s.Valid cx dom calls → s.Based base ty outer →
    lowerCode cx function total position code s = .ok () t → t.Based base ty outer

theorem Resting.grounded (h : Resting cx function total code) : Grounded cx function total code :=
  fun _ _ _ _ _ _ _ _ hv hb hx => hb.rests (h hv hx)

-- The first instruction of a region.
theorem lowerCode_opens (hv : s.Valid cx dom calls) (hi : i.opens? = some type)
    (hx : lowerCode cx function total position [i] s = .ok () t) :
    s.Founds i t.stack ∧ (∀ h ≤ s.floor, t.below h = s.below h) ∧
    ∃ result, resultOf type = .ok result ∧
      t.Based t.stack (result.map Result.type) (s.regions.map Region.frame) := by
  obtain ⟨j, u, hstep, hnil⟩ := exists_of_lowerCode_cons hx
  cases hnil
  exact (step_opens (hv.journal j) hi).of_ok hstep

-- The others up to its end.
theorem lowerCode_ends {result : Option Result} (hv : s.Valid cx dom calls)
    (hb : s.Based base (result.map Result.type) outer) (hr : resultOf type = .ok result)
    (hi : Grounded cx function total code)
    (hx : lowerCode cx function total position (code ++ [Instruction.end_]) s = .ok () t) :
    t.regions.map Region.frame = outer ∧ t.Delivers base type := by
  obtain ⟨u, hcode, hend⟩ := exists_of_lowerCode_append hx
  obtain ⟨_, hu⟩ := (lowerCode_meets hv).of_ok hcode
  obtain ⟨j, w, hstep, hnil⟩ := exists_of_lowerCode_cons hend
  cases hnil
  have hbu := hi hv hb hcode
  exact (close_based (hu.journal j) ⟨hbu.regions, hbu.below⟩ hr).of_ok hstep

-- The others up to its `else`.
theorem lowerCode_turns (hv : s.Valid cx dom calls) (hb : s.Based base ty outer)
    (hi : Grounded cx function total code)
    (hx : lowerCode cx function total position (code ++ [Instruction.else_]) s = .ok () t) :
    t.stack = base ∧ t.Based base ty outer := by
  obtain ⟨u, hcode, helse⟩ := exists_of_lowerCode_append hx
  obtain ⟨_, hu⟩ := (lowerCode_meets hv).of_ok hcode
  obtain ⟨j, w, hstep, hnil⟩ := exists_of_lowerCode_cons helse
  cases hnil
  have hbu := hi hv hb hcode
  exact (startElse_based (hu.journal j) ⟨hbu.regions, hbu.below⟩).of_ok hstep

theorem Grounded.turned (hi : Grounded cx function total inner)
    (ho : Grounded cx function total other) :
    Grounded cx function total (inner ++ Instruction.else_ :: other) := by
  intro s t position dom calls base ty outer hv hb hx
  rw [List.append_cons] at hx
  obtain ⟨w, hturn, hother⟩ := exists_of_lowerCode_append hx
  obtain ⟨_, hw⟩ := (lowerCode_meets hv).of_ok hturn
  exact ho hw (lowerCode_turns hv hb hi hturn).2 hother

-- A region and what follows it.
theorem Resting.region (hi : i.opens? = some type) (hin : Grounded cx function total inner)
    (hc : Resting cx function total code) :
    Resting cx function total (i :: inner ++ Instruction.end_ :: code) := by
  intro s t position dom calls hv hx
  have hcode : i :: inner ++ Instruction.end_ :: code =
      [i] ++ (inner ++ [Instruction.end_] ++ code) := by simp
  rw [hcode] at hx
  obtain ⟨w, hopen, hx⟩ := exists_of_lowerCode_append hx
  obtain ⟨u, hend, hrest⟩ := exists_of_lowerCode_append hx
  obtain ⟨_, hw⟩ := (lowerCode_meets hv).of_ok hopen
  obtain ⟨_, hu⟩ := (lowerCode_meets hw).of_ok hend
  obtain ⟨-, hbelow, result, hr, hb⟩ := lowerCode_opens hv hi hopen
  obtain ⟨hregions, hd⟩ := lowerCode_ends hw hb hr hin hend
  have hfloor := State.le_length_of_below hv.floor_le (hbelow _ (Nat.le_refl _))
  have hrests : s.Rests u := ⟨hregions, fun h hh =>
    (hd.below (Nat.le_trans hh hfloor)).trans (hbelow h hh)⟩
  exact hrests.trans (hc hu hrest)

theorem resting_of_nested (hn : Nested code) : Resting cx function total code := by
  induction hn
  case nil =>
    intro s t _ _ _ _ hx
    cases hx
    exact .refl s
  case plain i code hi _ hc =>
    intro s t position dom calls hv hx
    obtain ⟨j, u, hstep, hcode⟩ := exists_of_lowerCode_cons hx
    obtain ⟨_, hu⟩ := (step_meets (hv.journal j)).of_ok hstep
    have hr := (step_rests (hv.journal j) hi).of_ok hstep
    exact .trans ⟨hr.regions, hr.below⟩ (hc hu hcode)
  case block hi hc => exact .region rfl hi.grounded hc
  case loop hi hc => exact .region rfl hi.grounded hc
  case if_ hi hc => exact .region rfl hi.grounded hc
  case ifElse type _ _ _ _ _ _ hi ho hc =>
    have hr := Resting.region (i := .if_ type) rfl (hi.grounded.turned ho.grounded) hc
    simpa using hr

theorem grounded_of_encloses (he : Encloses i inner) : Grounded cx function total inner := by
  cases he
  case whole hi => exact (resting_of_nested hi).grounded
  case turned hi ho => exact (resting_of_nested hi).grounded.turned (resting_of_nested ho).grounded

-- Where a region begins in some code, and what its first instruction leaves to the others.
theorem exists_region {before rest : List Instruction} (hv : s.Valid cx dom calls)
    (hi : i.opens? = some type)
    (hx : lowerCode cx function total position (before ++ i :: rest) s = .ok () t) :
    ∃ u w, lowerCode cx function total position before s = .ok () u ∧
      lowerCode cx function total position (before ++ [i]) s = .ok () w ∧ u.Founds i w.stack ∧
      (∃ dom calls, w.Valid cx dom calls) ∧
      (∃ result outer, resultOf type = .ok result ∧
        w.Based w.stack (result.map Result.type) outer) ∧
      lowerCode cx function total (position + (before ++ [i]).length) rest w = .ok () t := by
  rw [List.append_cons] at hx
  obtain ⟨w, hw, hrest⟩ := exists_of_lowerCode_append hx
  obtain ⟨u, hu, hopen⟩ := exists_of_lowerCode_append hw
  obtain ⟨_, hvu⟩ := (lowerCode_meets hv).of_ok hu
  obtain ⟨_, hvw⟩ := (lowerCode_meets hv).of_ok hw
  obtain ⟨hf, -, result, hr, hb⟩ := lowerCode_opens hvu hi hopen
  exact ⟨u, w, hu, hw, hf, ⟨_, _, hvw⟩, ⟨result, _, hr, hb⟩, hrest⟩

end Runs

section Bodies

variable {globals : List GlobalSlot} {callees : List Callee} {own : Callee}
variable {types : List Bytecode.ValueType} {origin ready : State}

theorem lowerCode_keeps_bases
    (hprepare : prepare globals callees own types origin = .ok cx ready)
    (hcode : lowerCode cx own.name total 1 code ready = .ok () u) :
    (u.regions.map Region.height).Pairwise (· ≥ ·) ∧ (∀ r ∈ u.regions, r.height ≤ u.stack.length) ∧
    (∀ i t, lowerCode cx own.name total 1 (code ++ [i]) ready = .ok () t →
      u.floor ≤ t.stack.length ∧ t.below u.floor = u.below u.floor) ∧
    (∀ before i type inner, code = before ++ i :: inner ++ [Instruction.end_] → i.opens? = some type →
      Encloses i inner → ∃ s w, lowerCode cx own.name total 1 before ready = .ok () s ∧
        lowerCode cx own.name total 1 (before ++ [i]) ready = .ok () w ∧
        s.Founds i w.stack ∧ u.Delivers w.stack type) ∧
    ∀ before type inner, code = before ++ Instruction.if_ type :: inner ++ [Instruction.else_] →
      Nested inner → ∃ s w, lowerCode cx own.name total 1 before ready = .ok () s ∧
        lowerCode cx own.name total 1 (before ++ [Instruction.if_ type]) ready = .ok () w ∧
        s.Founds (.if_ type) w.stack ∧ u.stack = w.stack := by
  obtain ⟨_, hready⟩ := (prepare_meets.of_ok hprepare).valid
  obtain ⟨_, hu⟩ := (lowerCode_meets hready).of_ok hcode
  refine ⟨?heights, fun r hr => (hu.within r hr).height, fun i t hx => ?below,
    fun before i type inner hc hi he => ?ended, fun before type inner hc hn => ?turned⟩
  case heights => exact List.pairwise_map.mpr (hu.nested.imp fun h => h.height)
  case below =>
    obtain ⟨u', hcode', hx⟩ := exists_of_lowerCode_append hx
    cases hcode.symm.trans hcode'
    obtain ⟨j, t', hstep, hnil⟩ := exists_of_lowerCode_cons hx
    cases hnil
    obtain ⟨_, _, hm⟩ := (step_nests (hu.journal j)).of_ok hstep
    have hb : t.below u.floor = u.below u.floor := hm.below _ (Nat.le_refl _)
    exact ⟨State.le_length_of_below hu.floor_le hb, hb⟩
  case ended =>
    have hsplit : code = before ++ i :: (inner ++ [Instruction.end_]) := by simp [hc]
    obtain ⟨s, w, hs, hw, hf, ⟨_, _, hvw⟩, ⟨_, _, hr, hb⟩, hend⟩ :=
      exists_region hready hi (hsplit ▸ hcode)
    exact ⟨s, w, hs, hw, hf, (lowerCode_ends hvw hb hr (grounded_of_encloses he) hend).2⟩
  case turned =>
    have hsplit : code = before ++ Instruction.if_ type :: (inner ++ [Instruction.else_]) := by
      simp [hc]
    obtain ⟨s, w, hs, hw, hf, ⟨_, _, hvw⟩, ⟨_, _, _, hb⟩, hturn⟩ :=
      exists_region hready rfl (hsplit ▸ hcode)
    exact ⟨s, w, hs, hw, hf, (lowerCode_turns hvw hb (resting_of_nested hn).grounded hturn).1⟩

end Bodies

end Direct

section Bodies

variable {space : Space} {own : Callee} {cx : Context} {types : List Bytecode.ValueType}
variable {origin ready u : State} {total : Nat} {code : List Instruction}

-- The lowest operands of the stack.
def State.below (s : State) (h : Nat) : List Operand :=
  s.stack.drop (s.stack.length - h)

-- The operands `base` are what instruction `i`, which opens a region, leaves of the stack. It pops the
-- condition of an `if`, which dead code makes up where there is none.
def State.Founds (s : State) (i : Instruction) (base : List Operand) : Prop :=
  match i with
  | .if_ _ => (∃ condition, s.stack = condition :: base) ∨
    s.isDead = true ∧ s.stack.length = s.floor ∧ base = s.stack
  | _ => base = s.stack

-- A region of that type has ended on top of `base`.
def State.Delivers (s : State) (base : List Operand) : BlockType → Prop
  | .empty => s.stack = base
  | .value type => ∃ v g, s.stack = .value v :: base ∧ s.builder.function = some g ∧
    g.HasType v type.scalar
  | .signature _ => False

section Represents

variable {M : Ssa.Module} {t : State} {w : Direct.State} (h : t.Represents M none none w)
include h

theorem State.Represents.below (n : Nat) : t.below n = w.below n := by
  rw [State.below, Direct.State.below, h.stack]

theorem State.Represents.founds {i : Instruction} {base : List Operand} (hf : w.Founds i base) :
    t.Founds i base := by
  unfold State.Founds
  rw [h.stack, h.isDead, h.floor]
  exact hf

theorem State.Represents.delivers {base : List Operand} {type : BlockType}
    (hd : w.Delivers base type) : t.Delivers base type := by
  cases type
  case empty => exact h.stack.trans hd
  case value =>
    obtain ⟨v, hs, ht⟩ := hd
    exact ⟨v, w.function, h.stack.trans hs, h.function, ht⟩
  case signature => exact hd

end Represents

-- Regions are nested in their heights too, which no stack falls short of. No instruction touches what
-- is below the innermost region. When a region is left or turned to its other branch, the stack is as
-- it was when the region was entered, apart from the result at its end.
theorem lowerCode_respects_bases
    (hprepare : prepare space own types origin = .ok cx ready)
    (hcode : lowerCode cx own.name total 1 code ready = .ok () u) :
    (u.regions.map Region.height).Pairwise (· ≥ ·) ∧ (∀ r ∈ u.regions, r.height ≤ u.stack.length) ∧
    (∀ i t, lowerCode cx own.name total 1 (code ++ [i]) ready = .ok () t →
      u.floor ≤ t.stack.length ∧ t.below u.floor = u.below u.floor) ∧
    (∀ before i type inner, code = before ++ i :: inner ++ [Instruction.end_] → i.opens? = some type →
      Encloses i inner → ∃ s w, lowerCode cx own.name total 1 before ready = .ok () s ∧
        lowerCode cx own.name total 1 (before ++ [i]) ready = .ok () w ∧
        s.Founds i w.stack ∧ u.Delivers w.stack type) ∧
    ∀ before type inner, code = before ++ Instruction.if_ type :: inner ++ [Instruction.else_] →
      Nested inner → ∃ s w, lowerCode cx own.name total 1 before ready = .ok () s ∧
        lowerCode cx own.name total 1 (before ++ [Instruction.if_ type]) ready = .ok () w ∧
        s.Founds (.if_ type) w.stack ∧ u.stack = w.stack := by
  obtain ⟨-, v, hv, hr⟩ := exists_direct_prepare hprepare
  obtain ⟨x, hx, hu⟩ := exists_direct_lowerCode hr hcode
  obtain ⟨hheights, hwithin, hbelow, hended, hturned⟩ := Direct.lowerCode_keeps_bases hv hx
  -- What is known of an earlier state of the direct lowering holds here too.
  have hearlier {first rest w} (hc : code = first ++ rest)
      (hw : Direct.lowerCode cx.direct own.name total 1 first v = .ok () w) :
      ∃ t, lowerCode cx own.name total 1 first ready = .ok () t ∧
        t.Represents origin.builder.module none none w := by
    refine exists_lowerCode_of_direct (fun i hi => ?_) hr hw
    exact namesCalls_of_lowerCode hcode i (hc ▸ List.mem_append_left rest hi)
  refine ⟨?heights, fun r hm => ?within, fun i t ht => ?below,
    fun before i type inner hc hi he => ?ended, fun before type inner hc hn => ?turned⟩
  case heights =>
    have hmap : x.regions.map Direct.Region.height = u.regions.map Region.height := by
      rw [hu.regions, List.map_map]
      rfl
    exact hmap ▸ hheights
  case within =>
    rw [hu.stack]
    refine hwithin (r.direct u.phis) ?_
    rw [hu.regions]
    exact List.mem_map_of_mem hm
  case below =>
    obtain ⟨y, hy, ht⟩ := exists_direct_lowerCode hr ht
    rw [hu.floor, ht.stack, ht.below, hu.below]
    exact hbelow i y hy
  case ended =>
    obtain ⟨s', w', hs, hw, hf, hd⟩ := hended before i type inner hc hi he
    obtain ⟨s, hs, hsr⟩ := hearlier (by rw [hc, List.append_assoc]) hs
    obtain ⟨w, hw, hwr⟩ := hearlier (by rw [hc, List.append_assoc, List.append_assoc]; rfl) hw
    rw [← hwr.stack] at hf hd
    exact ⟨s, w, hs, hw, hsr.founds hf, hu.delivers hd⟩
  case turned =>
    obtain ⟨s', w', hs, hw, hf, hd⟩ := hturned before type inner hc hn
    obtain ⟨s, hs, hsr⟩ := hearlier (by rw [hc, List.append_assoc]) hs
    obtain ⟨w, hw, hwr⟩ := hearlier (by rw [hc, List.append_assoc, List.append_assoc]; rfl) hw
    rw [← hwr.stack] at hf hd
    exact ⟨s, w, hs, hw, hsr.founds hf, hu.stack.trans hd⟩

-- Both branches of an `if` with a result, on top of another operand. The first one leaves early, with
-- dead code behind that drops what is not there.
theorem lowerCode_respects_bases_of_if :
    let own : Callee := ⟨"f", ⟨[.i32], [.i32]⟩⟩
    let before : List Instruction := [.const (.i32 5), .localGet 0]
    let inner : List Instruction := [.const (.i32 1), .br 0, .drop, .else_, .const (.i32 2)]
    let choice : Instruction := .if_ (.value .i32)
    let code := before ++ choice :: inner ++ [Instruction.end_]
    let body : Bytecode.Body := ⟨0, [], code ++ [Instruction.drop, Instruction.end_]⟩
    ∃ cx ready u w v g, prepare {} own body.locals (.start #[]) = .ok cx ready ∧
      lowerCode cx own.name body.code.length 1 code ready = .ok () u ∧
      lowerCode cx own.name body.code.length 1 (before ++ [choice]) ready = .ok () w ∧
      u.stack = .value v :: w.stack ∧ u.builder.function = some g ∧ g.HasType v .i32 := by
  intro own before inner choice code body
  have hwhole : (match lowerFunction {} {} own body (.start #[]) with
      | .ok .. => true
      | .error .. => false) = true := by decide +kernel
  split at hwhole
  case h_2 => cases hwhole
  case h_1 f t hf =>
    have hfirst : body.code = code ++ [Instruction.drop, Instruction.end_] := rfl
    obtain ⟨cx, ready, u, hprepare, hcode⟩ := exists_of_lowerFunction hfirst hf
    obtain ⟨-, -, -, hended, -⟩ := lowerCode_respects_bases hprepare hcode
    have htaken : Nested [.const (.i32 1), .br 0, .drop] := .plain rfl (.plain rfl (.plain rfl .nil))
    have hother : Nested [.const (.i32 2)] := .plain rfl .nil
    have hencloses : Encloses choice inner := .turned htaken hother
    obtain ⟨s, w, -, hw, -, v, g, hs, hg, ht⟩ := hended before _ _ inner rfl rfl hencloses
    exact ⟨cx, ready, u, w, v, g, hprepare, hcode, hw, hs, hg, ht⟩

end Bodies

end Lowering

end StackCompiler
