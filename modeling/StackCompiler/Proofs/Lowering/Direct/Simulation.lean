import StackCompiler.Proofs.Lowering.Direct.Frames
import Mathlib.Data.List.Basic

-- Instruction by instruction, the lowering that goes through a builder does what the direct one does,
-- provided that the functions it calls have names.

namespace StackCompiler.Lowering

open Bytecode (BlockType Instruction ValueType)
open Ssa (BlockId Builder Function Op ValueId)

-- The region with the result that its number stands for.
def Region.direct (phis : List Result) (r : Region) : Direct.Region where
  kind := r.kind
  continuation := r.continuation
  result := r.phi.bind (phis[·]?)
  height := r.height
  isLive := r.isLive

-- Open regions with numbers for what they collect. No two of them collect the same.
structure Fits (phis : List Result) (regions : List Region) (ds : List Direct.Region) : Prop where
  eq_map : ds = regions.map (Region.direct phis)
  bounded : ∀ n ∈ regions.map Region.phi, ∀ k ∈ n, k < phis.length
  distinct : (regions.map Region.phi).Pairwise fun n n' => ∀ k ∈ n, k ∉ n'

-- The number of what a region collects that is not open, either not yet or no more.
structure Pending (phis : List Result) (regions : List Region) (phi : Option Nat)
    (result : Option Result) : Prop where
  eq_bind : phi.bind (phis[·]?) = result
  bounded : ∀ k ∈ phi, k < phis.length
  unused : ∀ n ∈ regions.map Region.phi, ∀ k ∈ phi, k ∉ n

def State.Represents (M : Ssa.Module) (phi : Option Nat) (result : Option Result) (t : State)
    (u : Direct.State) : Prop :=
  ∃ phis regions, t = .ofDirect M u phis regions ∧ Fits phis regions u.regions ∧
    Pending phis regions phi result

-- Two computations do the same, the first one while `phi` and the second one while `result` is pending.
def SimulatesWith (phi : Option Nat) (result : Option Result) (x : Lower α) (y : Direct.Lower α) : Prop :=
  ∀ M t u, t.Represents M phi result u →
    Tracks M.functions x t y u fun a t b u => a = b ∧ t.Represents M none none u

abbrev Simulates (x : Lower α) (y : Direct.Lower α) : Prop :=
  SimulatesWith none none x y

section Fits

variable {phis phis' : List Result} {region : Region} {regions : List Region} {phi : Option Nat}
variable {ds : List Direct.Region} {k : Nat} {r : Result} {result : Option Result}

theorem Region.kind_direct : (region.direct phis).kind = region.kind :=
  rfl

theorem Region.direct_eq (hk : ∀ k ∈ region.phi, phis'[k]? = phis[k]?) :
    region.direct phis' = region.direct phis := by
  cases hp : region.phi <;> simp_all [direct]

theorem Fits.floor {M : Ssa.Module} {u : Direct.State} (h : Fits phis regions u.regions) :
    (State.ofDirect M u phis regions).floor = u.floor := by
  rw [State.floor, Direct.State.floor, State.ofDirect_regions, h.eq_map]
  cases regions <;> rfl

theorem Fits.congr (h : Fits phis regions ds) (hlen : phis.length ≤ phis'.length)
    (hk : ∀ n ∈ regions.map Region.phi, ∀ k ∈ n, phis'[k]? = phis[k]?) : Fits phis' regions ds where
  eq_map := by
    rw [h.eq_map]
    refine List.map_congr_left fun region hm => ?_
    exact (Region.direct_eq (hk _ (List.mem_map_of_mem hm))).symm
  bounded n hn k hm := Nat.lt_of_lt_of_le (h.bounded n hn k hm) hlen
  distinct := h.distinct

theorem Fits.append (h : Fits phis regions ds) : Fits (phis ++ [r]) regions ds := by
  refine h.congr (by simp) fun n hn k hk => ?_
  rw [List.getElem?_append_left (h.bounded n hn k hk)]

theorem Fits.set (h : Fits phis regions ds) (hk : ∀ n ∈ regions.map Region.phi, k ∉ n) :
    Fits (phis.set k r) regions ds := by
  refine h.congr (by simp) fun n hn i hi => ?_
  refine List.getElem?_set_ne ?_
  rintro rfl
  exact hk n hn hi

-- A region opens with the result that is pending.
theorem Fits.cons (h : Fits phis regions ds) (hp : Pending phis regions region.phi result) :
    Fits phis (region :: regions) (region.direct phis :: ds) where
  eq_map := by rw [h.eq_map, List.map_cons]
  bounded := List.forall_mem_cons.mpr ⟨hp.bounded, h.bounded⟩
  distinct := List.pairwise_cons.mpr ⟨hp.unused, h.distinct⟩

theorem Pending.none : Pending phis regions none none :=
  ⟨rfl, by simp, by simp⟩

theorem Fits.fresh (h : Fits phis regions ds) :
    Pending (phis ++ [r]) regions (some phis.length) (some r) := by
  refine ⟨?eq_bind, ?bounded, ?unused⟩
  case eq_bind => rw [Option.bind_some, List.getElem?_concat_length]
  case bounded => simp
  case unused =>
    rintro n hn k hk hm
    cases hk
    exact Nat.lt_irrefl _ (h.bounded n hn _ hm)

-- A region is closed, and what it collects is pending.
theorem Fits.uncons (h : Fits phis (region :: regions) ds) :
    Fits phis regions (regions.map (Region.direct phis)) ∧
      Pending phis regions region.phi (region.direct phis).result := by
  obtain ⟨hb, hbounded⟩ := List.forall_mem_cons.mp h.bounded
  obtain ⟨hn, hdistinct⟩ := List.pairwise_cons.mp h.distinct
  exact ⟨⟨rfl, hbounded, hdistinct⟩, rfl, hb, hn⟩

-- No other region collects what the one at `depth` does.
theorem Fits.separate (h : Fits phis regions ds) {i depth : Nat} {n : Option Nat} (hi : i ≠ depth)
    (hn : (regions.map Region.phi)[i]? = some n)
    (hk : (regions.map Region.phi)[depth]? = some (some k)) : k ∉ n := by
  obtain ⟨hi', rfl⟩ := List.getElem?_eq_some_iff.mp hn
  obtain ⟨hd, hk⟩ := List.getElem?_eq_some_iff.mp hk
  have hd' := List.pairwise_iff_getElem.mp h.distinct
  obtain hlt | hlt := Nat.lt_or_gt_of_ne hi
  case inl =>
    intro hm
    exact hd' i depth hi' hd hlt k hm hk
  case inr => exact hd' depth i hd hi' hlt k hk

-- An open region changes, and what it alone collects.
theorem Fits.replace (h : Fits phis regions ds) {depth : Nat} {left : Region}
    (hr : regions[depth]? = some region) (hphi : left.phi = region.phi)
    (hlen : phis.length ≤ phis'.length)
    (hk : ∀ i n, i ≠ depth → (regions.map Region.phi)[i]? = some n → ∀ k ∈ n, phis'[k]? = phis[k]?) :
    Fits phis' (regions.set depth left) (ds.set depth (left.direct phis')) := by
  have hm : (regions.set depth left).map Region.phi = regions.map Region.phi := by
    obtain ⟨hd, rfl⟩ := List.getElem?_eq_some_iff.mp hr
    rw [List.map_set, hphi, ← List.getElem_map Region.phi (h := by simpa using hd),
      List.set_getElem_self]
  refine ⟨?eq_map, ?bounded, hm ▸ h.distinct⟩
  case bounded =>
    rw [hm]
    exact fun n hn k hm => Nat.lt_of_lt_of_le (h.bounded n hn k hm) hlen
  case eq_map =>
    rw [h.eq_map, List.map_set]
    refine List.ext_getElem? fun i => ?_
    simp only [List.getElem?_set, List.length_map, List.getElem?_map]
    split
    case isTrue => rfl
    case isFalse hi =>
      cases hg : regions[i]?
      case none => rfl
      case some other =>
        have hn : (regions.map Region.phi)[i]? = some other.phi := by
          rw [List.getElem?_map, hg, Option.map_some]
        rw [Option.map_some, Option.map_some, Region.direct_eq (hk i _ (Ne.symm hi) hn)]

end Fits

namespace State.Represents

variable {M : Ssa.Module} {t : State} {u : Direct.State} {phi : Option Nat} {result : Option Result}
variable (h : t.Represents M phi result u)
include h

theorem eq_ofDirect : t = .ofDirect M u t.phis t.regions := by
  obtain ⟨_, _, rfl, _⟩ := h
  rfl

theorem isDead : t.isDead = u.isDead :=
  congrArg State.isDead h.eq_ofDirect

theorem fail : t.journal = u.journal ∧ t.builder.module.functions = M.functions := by
  rw [h.eq_ofDirect]
  exact ⟨rfl, rfl⟩

theorem stack : t.stack = u.stack :=
  congrArg State.stack h.eq_ofDirect

theorem floor : t.floor = u.floor := by
  obtain ⟨_, _, rfl, hfits, _⟩ := h
  exact hfits.floor

theorem regions : u.regions = t.regions.map (Region.direct t.phis) := by
  obtain ⟨_, _, rfl, hfits, _⟩ := h
  exact hfits.eq_map

theorem function : t.builder.function = some u.function := by
  rw [h.eq_ofDirect]
  rfl

theorem block : t.builder.block = some u.block := by
  rw [h.eq_ofDirect]
  rfl

theorem exists_phi {region : Region} {k : Nat} (hr : region ∈ t.regions) (hk : region.phi = some k) :
    ∃ r, t.phis[k]? = some r := by
  obtain ⟨_, _, rfl, hfits, _⟩ := h
  have hlt := hfits.bounded _ (List.mem_map_of_mem hr) k (Option.mem_def.mpr hk)
  exact ⟨_, List.getElem?_eq_getElem hlt⟩

-- A number stands for a result, and no number for none.
theorem cases : (phi = none ∧ result = none) ∨ ∃ k r, phi = some k ∧ result = some r := by
  obtain ⟨phis, _, _, _, hp⟩ := h
  cases phi
  case none => exact .inl ⟨rfl, hp.eq_bind.symm⟩
  case some k =>
    have hk := hp.eq_bind
    rw [Option.bind_some, List.getElem?_eq_getElem (hp.bounded k rfl)] at hk
    exact .inr ⟨k, _, rfl, hk.symm⟩

end State.Represents

section Rules

variable {x : Lower α} {y : Direct.Lower α} {phi : Option Nat} {result : Option Result}

theorem Frames.tracks (h : Frames x y) {M : Ssa.Module} {t : State} {u : Direct.State}
    (hr : t.Represents M phi result u) :
    Tracks M.functions x t y u fun a t b u => a = b ∧ t.Represents M phi result u := by
  obtain ⟨phis, regions, rfl, hfits, hp⟩ := hr
  refine (h M u phis regions hfits.floor).mono ?_
  rintro a _ _ v ⟨rfl, rfl, hv⟩
  exact ⟨rfl, phis, regions, rfl, hv ▸ hfits, hp⟩

theorem Frames.simulates (h : Frames x y) : Simulates x y :=
  fun _ _ _ hr => h.tracks hr

theorem Frames.before {f : α → Lower β} {g : α → Direct.Lower β} (h : Frames x y)
    (hk : ∀ a, SimulatesWith phi result (f a) (g a)) :
    SimulatesWith phi result (x >>= f) (y >>= g) := by
  intro M t u hr
  refine (h.tracks hr).bind ?_
  rintro a t _ u ⟨rfl, hr⟩
  exact hk a M t u hr

theorem Simulates.unlessDead {x : Lower Unit} {y : Direct.Lower Unit} (h : Simulates x y) :
    Simulates
      (do
        if (← get).isDead then
          return
        x)
      (do
        if (← get).isDead then
          return
        y) := by
  intro M t u hr
  refine .get ?_
  rw [hr.isDead]
  exact .ite (fun _ => ⟨rfl, hr⟩) fun _ => h M t u hr

theorem Simulates.bind {f : α → Lower β} {g : α → Direct.Lower β} (h : Simulates x y)
    (hk : ∀ a, Simulates (f a) (g a)) : Simulates (x >>= f) (y >>= g) := by
  intro M t u hr
  refine (h M t u hr).bind ?_
  rintro a t _ u ⟨rfl, hr⟩
  exact hk a M t u hr

end Rules

section Regions

variable {M : Ssa.Module} {t : State} {u : Direct.State} {phis : List Result} {region : Region}
variable {regions : List Region} {k : Nat} {r : Result} {v : ValueId} {b old new : BlockId}
variable {phi : Option Nat} {result : Option Result} {opcode : String} {type : BlockType} {depth : Nat}

theorem newPhi_before {f : Option Nat → Lower α} {g : Option Result → Direct.Lower α}
    (h : ∀ phi result, SimulatesWith phi result (f phi) (g result)) :
    Simulates (newPhi type >>= f) (ofExcept (Direct.resultOf type) >>= g) := by
  rintro M _ u ⟨phis, regions, rfl, hfits, _⟩
  cases type
  case empty => exact h none none M _ u ⟨phis, regions, rfl, hfits, .none⟩
  case value type => exact h _ _ M _ u ⟨_, regions, rfl, hfits.append, hfits.fresh⟩
  case signature => exact ⟨rfl, rfl, rfl⟩

theorem openRegion_simulates {kind : RegionKind} :
    SimulatesWith phi result (openRegion kind b phi) (Direct.openRegion kind b result) := by
  rintro M _ u ⟨phis, regions, rfl, hfits, hp⟩
  obtain rfl := hp.eq_bind
  let region : Region := ⟨kind, b, phi, u.stack.length, !u.isDead⟩
  have hcons : Fits phis (region :: regions) (region.direct phis :: u.regions) := hfits.cons hp
  exact ⟨rfl, phis, _, rfl, hcons, .none⟩

theorem startBlock_simulates : Simulates (startBlock type) (Direct.startBlock type) :=
  newPhi_before fun _ _ => newBlock_frames.before fun _ => newBlock_frames.before fun _ =>
    perform_frames.before fun _ => setBlock_frames.before fun _ => openRegion_simulates

theorem startLoop_simulates : Simulates (startLoop type) (Direct.startLoop type) :=
  newPhi_before fun _ _ => newBlock_frames.before fun _ => newBlock_frames.before fun _ =>
    perform_frames.before fun _ => setBlock_frames.before fun _ => openRegion_simulates

theorem startIf_simulates : Simulates (startIf opcode type) (Direct.startIf opcode type) :=
  popCondition_frames.before fun _ => newBlock_frames.before fun _ => newBlock_frames.before fun _ =>
    perform_frames.before fun _ => setBlock_frames.before fun _ =>
    newPhi_before fun _ _ => openRegion_simulates

theorem retargetAll_frames {sources : List BlockId} :
    Frames (retargetAll sources old new) (Direct.retargetAll sources old new) := by
  induction sources
  case nil => exact .pure
  case cons b sources hi => exact Frames.edit.bind fun _ => hi

theorem resumeAt_frames : Frames (resumeAt region b) (Direct.resumeAt (region.direct phis) b) :=
  setBlock_frames.bind fun _ _ _ _ _ _ => ⟨rfl, rfl, rfl⟩

theorem collected_eq (hk : phis[k]? = some r) :
    collected k (.ofDirect M u phis regions) = .ok r (.ofDirect M u phis regions) := by
  rw [collected, get_bind, State.ofDirect_phis, hk]
  rfl

-- The result of number `k` has a value more.
theorem fillPhi_tracks (hk : phis[k]? = some r) :
    Tracks M.functions (fillPhi k v) (.ofDirect M u phis regions) (Direct.fill r v) u fun _ t r' w =>
      w = u ∧ t = .ofDirect M u (phis.set k r') regions := by
  rw [Direct.fill, Direct.expectType, bind_assoc]
  refine (typeOf_tracks M u phis regions).bind ?_
  rintro found _ _ _ ⟨rfl, rfl, rfl⟩
  rw [Tracks, bind_eq_of_eq_ok (collected_eq hk)]
  by_cases hf : found ≠ r.type
  case pos =>
    rw [if_pos hf, if_pos hf]
    exact ⟨rfl, rfl, rfl⟩
  case neg =>
    rw [if_neg hf, if_neg hf]
    exact ⟨rfl, rfl⟩

theorem popResult_tracks {d : Direct.Region} (hd : d.height = region.height)
    (hr : t.Represents M (some k) (some r) u) :
    Tracks M.functions (popResult region k) t (Direct.popResult d r) u fun _ t r' w =>
      t.Represents M (some k) (some r') w := by
  obtain ⟨phis, regions, rfl, hfits, hp⟩ := hr
  refine .get ?_
  rw [hd]
  refine .ite (fun _ => ⟨rfl, rfl, rfl⟩) fun _ => ?_
  rw [State.ofDirect_stack]
  cases u.stack
  case nil => exact ⟨rfl, rfl, rfl⟩
  case cons o rest =>
    cases o
    case comparison => exact ⟨rfl, rfl, rfl⟩
    case value v =>
      have h : Tracks M.functions (fillPhi k v) (.ofDirect M { u with stack := rest } phis regions)
        (Direct.fill r v) { u with stack := rest } _ := fillPhi_tracks hp.eq_bind
      refine Tracks.mono h ?_
      rintro _ _ r' _ ⟨rfl, rfl⟩
      have hk : k < phis.length := hp.bounded k rfl
      refine ⟨phis.set k r', regions, rfl, hfits.set fun n hn => hp.unused n hn k rfl, ?_, ?_, hp.unused⟩
      · exact List.getElem?_set_self hk
      · simpa using hk

theorem leave_tracks {height : Nat} {op : Op} (hr : t.Represents M phi result u) :
    Tracks M.functions
      (do
        truncate height
        perform op)
      t
      (do
        Direct.truncate height
        Direct.perform op
        return result)
      u fun _ t result w => t.Represents M phi result w := by
  refine (truncate_frames.tracks hr).bind ?_
  rintro _ t _ u ⟨rfl, hr⟩
  refine .look_right (fun _ _ => rfl) ((perform_frames.tracks hr).mono ?_)
  rintro _ t _ u ⟨rfl, hr⟩
  exact hr

-- A closed region has collected one more value or none.
theorem closeRegion_tracks {d : Direct.Region} (hd : d.height = region.height)
    (hr : t.Represents M region.phi d.result u) :
    Tracks M.functions (closeRegion region b) t (Direct.closeRegion d b) u fun _ t result w =>
      t.Represents M region.phi result w := by
  refine .get ?_
  rw [hd, hr.isDead]
  refine .ite (fun _ => leave_tracks hr) fun _ => ?_
  obtain ⟨hp, hn⟩ | ⟨k, r, hp, hs⟩ := hr.cases
  case inl =>
    rw [hp, hn] at hr ⊢
    exact leave_tracks hr
  case inr =>
    rw [hp, hs] at hr ⊢
    simp only [map_eq_pure_bind, bind_assoc, pure_bind]
    exact (popResult_tracks hd hr).bind fun _ _ _ _ hr => leave_tracks hr

-- What the innermost region collects is pending once the region is gone.
theorem Fits.represents (h : Fits phis (region :: regions) u.regions) :
    State.Represents M region.phi (region.direct phis).result
      (.ofDirect M { u with regions := regions.map (Region.direct phis) } phis regions)
      { u with regions := regions.map (Region.direct phis) } := by
  obtain ⟨hfits, hp⟩ := h.uncons
  exact ⟨phis, regions, rfl, hfits, hp⟩

theorem startElse_simulates : Simulates startElse Direct.startElse := by
  rintro M _ u ⟨phis, regions, rfl, hfits, -⟩
  refine .get ?_
  rw [State.ofDirect_regions, hfits.eq_map]
  cases regions
  case nil => exact ⟨rfl, rfl, rfl⟩
  case cons region outer =>
    rw [List.map_cons]
    dsimp only
    rw [Region.kind_direct]
    cases region.kind
    case block | loop | else_ => exact ⟨rfl, rfl, rfl⟩
    case if_ breaks =>
      refine .set ((newBlock_frames.tracks hfits.represents).bind ?_)
      rintro continuation t _ u ⟨rfl, hr⟩
      refine (closeRegion_tracks rfl hr).bind ?_
      intro _ t result u hr
      refine (retargetAll_frames.tracks hr).bind ?_
      rintro _ t _ u ⟨rfl, hr⟩
      refine (resumeAt_frames.tracks hr).bind ?_
      rintro _ _ _ u ⟨rfl, phis', regions, rfl, hfits, hp⟩
      obtain rfl := hp.eq_bind
      let other : Region := { region with kind := .else_, continuation := continuation }
      have hcons : Fits phis' (other :: regions) (other.direct phis' :: u.regions) := hfits.cons hp
      exact ⟨rfl, phis', _, rfl, hcons, .none⟩

theorem pushResult_simulates : SimulatesWith (some k) (some r) (pushResult k) (Direct.pushResult r) := by
  rintro M _ u ⟨phis, regions, rfl, hfits, hp⟩
  have hr : State.Represents M none none
      (.ofDirect M u (phis.set k { r with incoming := [] }) regions) u :=
    ⟨_, regions, rfl, hfits.set fun n hn => hp.unused n hn k rfl, .none⟩
  rw [pushResult, Tracks, bind_eq_of_eq_ok (collected_eq hp.eq_bind)]
  have hpush : Frames (do
      if r.incoming.isEmpty then
        push (← deadOperand r.type)
      else
        note .phiCreated
        push (← define "block_result" r.type (.phi r.incoming))) (Direct.pushResult r) :=
    .ite (deadOperand_frames.bind fun _ => push_frames)
      (Frames.note.bind fun _ => define_frames.bind fun _ => push_frames)
  exact hpush.tracks hr

-- Behind a region its result comes back, if it has one.
theorem pushPending_simulates : SimulatesWith phi result
    (match phi with
      | none => pure ()
      | some phi => pushResult phi)
    (match result with
      | none => pure ()
      | some r => Direct.pushResult r) := by
  intro M t u hr
  obtain ⟨rfl, rfl⟩ | ⟨k, r, rfl, rfl⟩ := hr.cases
  case inl => exact ⟨rfl, hr⟩
  case inr => exact pushResult_simulates M t u hr

theorem endRegion_tracks (hr : t.Represents M region.phi (region.direct phis).result u) :
    Tracks M.functions
      (do
        closeRegion region b
        resumeAt region b
        match region.phi with
        | none => pure ()
        | some phi => pushResult phi)
      t
      (do
        let result ← Direct.closeRegion (region.direct phis) b
        Direct.resumeAt (region.direct phis) b
        match result with
        | none => pure ()
        | some r => Direct.pushResult r)
      u fun a t b u => a = b ∧ t.Represents M none none u := by
  refine (closeRegion_tracks rfl hr).bind ?_
  intro _ t result u hr
  exact resumeAt_frames.before (fun _ => pushPending_simulates) M t u hr

theorem close_simulates : Simulates close Direct.close := by
  rintro M _ u ⟨phis, regions, rfl, hfits, -⟩
  refine .get ?_
  rw [State.ofDirect_regions, hfits.eq_map]
  cases regions
  case nil => exact ⟨rfl, phis, [], rfl, ⟨rfl, hfits.bounded, hfits.distinct⟩, .none⟩
  case cons region outer =>
    have hr := hfits.represents (M := M)
    have hend := endRegion_tracks (b := region.continuation) hr
    rw [List.map_cons]
    dsimp only
    rw [Region.kind_direct]
    obtain ⟨hp, hn⟩ | ⟨k, r, hp, hs⟩ := hr.cases
    case inl =>
      rw [hp] at hend ⊢
      rw [hn]
      cases region.kind <;> exact .set hend
    case inr =>
      rw [hp] at hend ⊢
      rw [hs]
      cases region.kind
      case if_ => exact ⟨rfl, rfl, rfl⟩
      case block | loop | else_ => exact .set hend

theorem floor_leave (hfits : Fits phis regions u.regions) (hr : regions[depth]? = some region) :
    (State.ofDirect M u phis (regions.set depth (region.leave b))).floor = u.floor := by
  rw [← hfits.floor (M := M)]
  cases regions
  case nil => rfl
  case cons other outer =>
    cases depth
    case zero =>
      cases hr
      simp only [State.floor, State.ofDirect_regions, List.set_cons_zero, Region.leave]
      split <;> rfl
    case succ => rfl

theorem Region.phi_leave : (region.leave b).phi = region.phi := by
  unfold leave
  split <;> rfl

theorem Region.direct_leave {phis' : List Result} : (region.leave b).direct phis =
    { (region.direct phis').leave b with result := region.phi.bind (phis[·]?) } := by
  unfold leave Direct.Region.leave
  rw [Region.kind_direct]
  cases region.kind <;> rfl

-- A branch notes where it leaves a region from, and the value it brings.
theorem leaveRegion_tracks (opcode : String) (hfits : Fits phis regions u.regions)
    (hr : regions[depth]? = some region) :
    Tracks M.functions
      (do
        modify fun s => { s with regions := s.regions.set depth (region.leave u.block) }
        if let some phi := region.phi then
          fillPhi phi (← peekValue opcode)
        return Target.block region.continuation)
      (.ofDirect M u phis regions)
      (do
        let result ←
          match (region.direct phis).result with
          | none => pure none
          | some r => some <$> Direct.fill r (← Direct.peekValue opcode)
        let left := { (region.direct phis).leave u.block with result := result }
        modify fun s => { s with regions := s.regions.set depth left }
        return Target.block (region.direct phis).continuation)
      u fun a t b w => a = b ∧ t.Represents M none none w := by
  have hm : (regions.map Region.phi)[depth]? = some region.phi := by
    rw [List.getElem?_map, hr, Option.map_some]
  have hleave : ∀ phis', phis.length ≤ phis'.length →
      (∀ i n, i ≠ depth → (regions.map Region.phi)[i]? = some n → ∀ k ∈ n, phis'[k]? = phis[k]?) →
      Fits phis' (regions.set depth (region.leave u.block)) (u.regions.set depth
        { (region.direct phis).leave u.block with result := region.phi.bind (phis'[·]?) }) := by
    intro phis' hlen hk
    rw [← Region.direct_leave]
    exact hfits.replace hr Region.phi_leave hlen hk
  have hres : (region.direct phis).result = region.phi.bind (phis[·]?) := rfl
  rw [hres]
  cases hp : region.phi <;> rw [hp] at hm hleave
  case none => exact ⟨rfl, phis, _, rfl, hleave phis (Nat.le_refl _) fun _ _ _ _ _ _ => rfl, .none⟩
  case some k =>
    have hk := hfits.bounded _ (List.mem_of_getElem? hm) k rfl
    rw [Option.bind_some, List.getElem?_eq_getElem hk]
    simp only [map_eq_pure_bind, bind_assoc, pure_bind]
    refine .modify_left ((peekValue_tracks (floor_leave hfits hr)).bind ?_)
    rintro v _ _ _ ⟨rfl, rfl, rfl⟩
    refine (fillPhi_tracks (List.getElem?_eq_getElem hk)).bind ?_
    rintro _ _ r _ ⟨rfl, rfl⟩
    have hset : (some k).bind ((phis.set k r)[·]?) = some r := by
      rw [Option.bind_some, List.getElem?_set_self hk]
    refine ⟨rfl, phis.set k r, _, rfl, hset ▸ hleave _ (by simp) ?_, .none⟩
    rintro i n hi hn j hj
    refine List.getElem?_set_ne ?_
    rintro rfl
    exact hfits.separate hi hn hm hj

theorem branchTarget_simulates :
    Simulates (branchTarget opcode depth) (Direct.branchTarget opcode depth) := by
  rintro M _ u ⟨phis, regions, rfl, hfits, -⟩
  refine .get ?_
  have hlen : u.regions.length = regions.length := by rw [hfits.eq_map, List.length_map]
  have hds : u.regions[depth]? = (regions[depth]?).map (Region.direct phis) := by
    rw [hfits.eq_map, List.getElem?_map]
  rw [State.ofDirect_regions, hlen, hds]
  refine .ite (fun _ => ⟨rfl, phis, regions, rfl, hfits, .none⟩) fun _ => ?_
  cases hr : regions[depth]?
  case none => exact ⟨rfl, rfl, rfl⟩
  case some region =>
    have hactive : (liftM Builder.activeBlock : Lower BlockId) (.ofDirect M u phis regions) =
      .ok u.block (.ofDirect M u phis regions) := rfl
    have hleave := leaveRegion_tracks (M := M) opcode hfits hr
    rw [Option.map_some]
    dsimp only
    rw [Tracks, bind_eq_of_eq_ok hactive, Region.kind_direct]
    cases region.kind
    case loop => exact ⟨rfl, phis, regions, rfl, hfits, .none⟩
    case block | if_ | else_ => exact hleave

end Regions

-- The functions by number. One without a name gets an empty one here.
def Space.callees (space : Space) : List Callee :=
  space.signatures.zipIdx.map fun (s, i) => ⟨(space.names.lookup i).getD "", s⟩

def Context.direct (cx : Context) : Direct.Context where
  globals := cx.globals
  callees := cx.callees
  locals := cx.locals
  result := cx.result

-- If there is such a function, it has a name.
def Space.Names (space : Space) (index : Nat) : Prop :=
  index < space.signatures.length → (space.names.lookup index).isSome

-- The functions that an instruction calls have names.
def Space.NamesCalls (space : Space) (i : Instruction) : Prop :=
  ∀ index, i = .call index → space.Names index

section Step

variable {cx : Context} {opcode : String} {type : ValueType} {index offset depth : Nat}

theorem callee_direct (h : cx.Names index) : cx.callee index = cx.direct.callee index := by
  have hc : cx.direct.callees[index]? = (cx.signatures[index]?).map fun s =>
      ⟨(cx.names.lookup index).getD "", s⟩ := by
    rw [Context.direct, Space.callees, List.getElem?_map, List.getElem?_zipIdx, Option.map_map,
      Nat.zero_add]
    rfl
  rw [Space.callee, Direct.Context.callee, hc]
  cases hs : cx.signatures[index]?
  case none => rfl
  case some s =>
    obtain ⟨name, hn⟩ := Option.isSome_iff_exists.mp (h (List.getElem?_eq_some_iff.mp hs).1)
    rw [hn]
    rfl

theorem binary_frames {op : BinaryOp} : Frames (binary opcode type op) (Direct.binary opcode type op) :=
  .guard (popTyped_frames.bind fun _ => popTyped_frames.bind fun _ => define_frames.bind fun _ =>
    push_frames)

theorem compare_frames {op : Comparison} :
    Frames (compare opcode type op) (Direct.compare opcode type op) :=
  .guard (popTyped_frames.bind fun _ => popTyped_frames.bind fun _ => pushComparison_frames)

theorem eqz_frames : Frames (eqz opcode type) (Direct.eqz opcode type) :=
  popTyped_frames.bind fun _ => define_frames.bind fun _ => pushComparison_frames

theorem neg_frames : Frames (neg opcode type) (Direct.neg opcode type) :=
  .guard (popTyped_frames.bind fun _ => define_frames.bind fun _ => push_frames)

theorem floor_frames : Frames (floor opcode type) (Direct.floor opcode type) :=
  .guard (popTyped_frames.bind fun _ => define_frames.bind fun _ => define_frames.bind fun _ =>
    push_frames)

theorem localGet_frames : Frames (localGet cx index) (Direct.localGet cx.direct index) :=
  Frames.ofExcept.bind fun _ => define_frames.bind fun _ => push_frames

theorem localSet_frames : Frames (localSet cx opcode index) (Direct.localSet cx.direct opcode index) :=
  Frames.ofExcept.bind fun _ => popTyped_frames.bind fun _ => perform_frames.bind fun _ => .pure

theorem globalGet_frames : Frames (globalGet cx index) (Direct.globalGet cx.direct index) :=
  Frames.ofExcept.bind fun _ => define_frames.bind fun _ => define_frames.bind fun _ => push_frames

theorem globalSet_frames :
    Frames (globalSet cx opcode index) (Direct.globalSet cx.direct opcode index) :=
  Frames.ofExcept.bind fun _ => .guard (popTyped_frames.bind fun _ => define_frames.bind fun _ =>
    perform_frames)

theorem address_frames {base : ValueId} : Frames (address base offset) (Direct.address base offset) :=
  define_frames.bind fun _ => define_frames

theorem load_frames : Frames (load opcode type offset) (Direct.load opcode type offset) :=
  popTyped_frames.bind fun _ => address_frames.bind fun _ => define_frames.bind fun _ => push_frames

theorem store_frames : Frames (store opcode type offset) (Direct.store opcode type offset) :=
  popTyped_frames.bind fun _ => popTyped_frames.bind fun _ => address_frames.bind fun _ =>
    perform_frames

theorem call_frames (h : cx.Names index) :
    Frames (call cx opcode index) (Direct.call cx.direct opcode index) := by
  rw [call, Direct.call, callee_direct h]
  exact Frames.ofExcept.bind fun _ => Frames.journaled.bind fun _ => Frames.ofExcept.bind fun _ =>
    popArguments_frames.bind fun _ => emit_frames.bind fun _ => Frames.note.bind fun _ =>
      .ite push_frames .pure

theorem return_simulates : Simulates (return_ cx opcode) (Direct.return_ cx.direct opcode) :=
  .unlessDead (emitReturn_frames.before fun _ => enterDeadBlock_frames.simulates)

theorem branch_simulates :
    Simulates (branch cx opcode depth) (Direct.branch cx.direct opcode depth) := by
  refine .unlessDead (branchTarget_simulates.bind fun target => ?_)
  cases target
  case body => exact (emitReturn_frames.bind fun _ => enterDeadBlock_frames).simulates
  case block => exact (perform_frames.bind fun _ => enterDeadBlock_frames).simulates

theorem branchIf_simulates :
    Simulates (branchIf cx opcode depth) (Direct.branchIf cx.direct opcode depth) := by
  refine popCondition_frames.before fun c => ?_
  obtain ⟨lhs, cond, rhs⟩ := c
  refine Simulates.unlessDead (branchTarget_simulates.bind fun target => ?_)
  cases target
  case block =>
    exact (newBlock_frames.bind fun _ => perform_frames.bind fun _ => setBlock_frames).simulates
  case body =>
    exact (newBlock_frames.bind fun _ => newBlock_frames.bind fun _ => perform_frames.bind fun _ =>
      setBlock_frames.bind fun _ => emitReturnKeep_frames.bind fun _ => setBlock_frames).simulates

theorem step_simulates {i : Instruction} (h : cx.NamesCalls i) :
    Simulates (step cx i) (Direct.step cx.direct i) := by
  cases i
  case binary => exact binary_frames.simulates
  case compare => exact compare_frames.simulates
  case eqz => exact eqz_frames.simulates
  case neg => exact neg_frames.simulates
  case floor => exact floor_frames.simulates
  case const => exact (define_frames.bind fun _ => push_frames).simulates
  case localGet => exact localGet_frames.simulates
  case localSet => exact localSet_frames.discard.simulates
  case localTee => exact (localSet_frames.bind fun _ => push_frames).simulates
  case globalGet => exact globalGet_frames.simulates
  case globalSet => exact globalSet_frames.simulates
  case load => exact load_frames.simulates
  case store => exact store_frames.simulates
  case block => exact startBlock_simulates
  case loop => exact startLoop_simulates
  case if_ => exact startIf_simulates
  case else_ => exact startElse_simulates
  case end_ => exact close_simulates
  case br => exact branch_simulates
  case brIf => exact branchIf_simulates
  case call index => exact (call_frames (h index rfl)).simulates
  case return_ => exact return_simulates
  case drop => exact popOperand_frames.discard.simulates
  case nop => exact Frames.pure.simulates
  all_goals exact Frames.throw.simulates

-- Code that is lowered has only calls of functions with names.
theorem namesCalls_of_step {i : Instruction} {s t : State} (h : step cx i s = .ok () t) :
    cx.NamesCalls i := by
  rintro index rfl hlt
  obtain ⟨callee, u, hc, -⟩ := exists_of_bind_eq_ok (x := ofExcept (cx.callee index)) h
  rw [Space.callee, List.getElem?_eq_getElem hlt] at hc
  cases hn : cx.names.lookup index
  case none =>
    rw [hn] at hc
    cases hc
  case some => rfl

variable {function : String} {total position : Nat} {code : List Instruction}

theorem lowerCode_simulates (h : ∀ i ∈ code, cx.NamesCalls i) :
    Simulates (lowerCode cx function total position code)
      (Direct.lowerCode cx.direct function total position code) := by
  induction code generalizing position
  case nil => exact Frames.pure.simulates
  case cons i rest hi =>
    obtain ⟨hc, hrest⟩ := List.forall_mem_cons.mp h
    refine Frames.note.before fun _ M t u hr => ?_
    have hended : t.isEnded = u.isEnded := congrArg State.isEnded hr.eq_ofDirect
    refine .get ?_
    rw [hended]
    refine .ite (fun _ => ⟨rfl, hr.fail⟩) fun _ => ?_
    exact Frames.note.before (fun _ => (step_simulates hc).bind fun _ => hi hrest) M t u hr

theorem namesCalls_of_lowerCode {s t : State}
    (h : lowerCode cx function total position code s = .ok () t) : ∀ i ∈ code, cx.NamesCalls i := by
  induction code generalizing position s
  case nil => exact List.forall_mem_nil _
  case cons i rest hi =>
    obtain ⟨_, s, -, h⟩ := exists_of_bind_eq_ok h
    rw [get_bind] at h
    split at h
    case isTrue => cases h
    case isFalse =>
      obtain ⟨_, u, -, h⟩ := exists_of_bind_eq_ok h
      obtain ⟨_, v, hs, h⟩ := exists_of_bind_eq_ok h
      exact List.forall_mem_cons.mpr ⟨namesCalls_of_step hs, hi h⟩

end Step

end StackCompiler.Lowering
