import StackCompiler.Proofs.Lowering.Body
import StackCompiler.Proofs.Typing.Mirror

-- The instructions that open, leave and close regions: they succeed exactly when their check does,
-- and the outline tells which code is dead.

namespace StackCompiler.Lowering.Direct

open Bytecode (BlockType)
open Ssa (BlockId Function Op Scope ValueId)
open Typing (Bracket Check Item Outline)

variable {cx : Context} {f g : Function} {dom dom' : Scope} {calls : List Nat} {s t u : State}
variable {k l : Outline} {p target : BlockId} {op : Op} {r : Region} {b : Bracket}
variable {fresh : List BlockId} {opcode : String} {depth : Nat} {kind : RegionKind}
variable {result after : Option Result} {type : BlockType} {outer : List Region}

theorem Mirrors.and_meets {α β : Type} {x : Lower α} {y : Check β}
    {Q : α → State → β → Outline → Prop} {P : α → State → Prop} (h : Mirrors x s y k Q)
    (hm : Meets x s P) : Mirrors x s y k fun a t b l => Q a t b l ∧ P a t := by
  unfold Mirrors at h ⊢
  cases hx : x s <;> cases hy : y k <;> simp only [hx, hy] at h ⊢
  exact ⟨h, hm.of_ok hx⟩

theorem Mirrors.map {α β γ : Type} {x : Lower α} {y : Check β}
    {Q : α → State → β → Outline → Prop} {g : α → γ} (h : Mirrors x s y k Q) :
    Mirrors (g <$> x) s y k fun c t b l => ∃ a, Q a t b l ∧ c = g a := by
  rw [map_eq_pure_bind]
  exact .of_bind_pure (h.bind fun a _ _ _ hq => ⟨a, hq, rfl⟩)

namespace Region.Outlined

-- No edge to the continuation comes or goes.
theorem congr (h : r.Outlined f b)
    (he : ∀ q, r.continuation ∈ g.successors q ↔ r.continuation ∈ f.successors q) :
    r.Outlined g b := by
  refine { h with isLeft := h.isLeft.trans ?_ }
  unfold IsLeft
  split
  case h_1 => exact .rfl
  case h_2 => simp only [he]

theorem pass (h : r.Outlined f b) (hs : f.Sealed dom p op fresh g dom')
    (hn : r.continuation ∉ op.successors) : r.Outlined g b :=
  h.congr fun q => by simp [hs.mem_successors_iff, hn]

-- Live code leaves the region.
theorem exit (h : r.Outlined f b) (hh : s.Hands r.result after)
    (hp : r.continuation ∈ g.successors p) :
    (r.exit p after).Outlined g b.leave where
  shape := by
    have hs : b.leave.shape = r.kind.shape := h.shape
    rw [hs]
    cases hk : r.kind <;> simp [Region.exit, Region.leave, hk, RegionKind.shape]
  result := h.result.trans hh.type.symm
  height := h.height.trans (Region.height_congr (exit_frame hh)).symm
  isLive := h.isLive.trans (Region.isLive_congr (exit_frame hh)).symm
  isLeft := by
    refine iff_of_true rfl ?_
    unfold IsLeft
    split
    case h_1 breaks hk =>
      obtain ⟨old, _, rfl⟩ := exit_kind_eq_if_iff.mp hk
      simp
    case h_2 => exact ⟨p, (Region.continuation_congr (exit_frame hh)).symm ▸ hp⟩

end Region.Outlined

-- The regions that the active block does not lead out of.
theorem State.Outlined.passes {rs : List Region} {bs : List Bracket}
    (h : List.Forall₂ (Region.Outlined s.function) rs bs)
    (hs : s.function.Sealed dom s.block op fresh g dom')
    (hn : ∀ r ∈ rs, r.continuation ∉ op.successors) : List.Forall₂ (Region.Outlined g) rs bs :=
  ((List.forall₂_and_left ..).mpr ⟨hn, h⟩).imp fun _ _ h => h.2.pass hs h.1

-- A region that has just been opened.
theorem State.Outlined.enter (hv : s.Valid cx dom calls) (h : s.Outlined k)
    (he : Enters s.function.freshBlock s.grow.function.freshBlock kind op)
    (hf : s.function.Fits dom s.block none op)
    (hres : ∀ res, result = some res → res.incoming = []) :
    (s.enter kind op result).Outlined { k with
      brackets := ⟨kind.shape, result.map Result.type, k.stack.length, !k.isDead, false⟩ ::
        k.brackets } := by
  have hne := s.freshBlock_ne
  obtain ⟨_, hs, _⟩ := hv.fork (by cases he <;> rfl) (by cases he <;> simp [Op.successors, hne])
    (by cases he <;> simp [Op.successors]) hf
  obtain ⟨_, ht⟩ := hv.enter he hf hres
  refine ⟨ht.ready, h.stack.imp fun _ _ => .mono hs.grows.keeps, .cons ?new ?old, h.isDead, h.isEnded⟩
  case new =>
    refine ⟨rfl, rfl, h.length_eq, by rw [h.isDead], iff_of_false (by simp) ?_⟩
    have hout (hn : s.grow.function.freshBlock ∉ op.successors) :
        ¬∃ q, s.grow.function.freshBlock ∈ (s.fork op).function.successors q := by
      rintro ⟨q, hq⟩
      rcases hs.mem_successors_iff.mp hq with hq | ⟨_, hq⟩
      · exact Nat.not_lt_of_le (hs.created _ (by simp)) (hv.draft.linked.created hq)
      · exact hn hq
    cases he
    case if_ => exact not_not.mpr rfl
    all_goals exact hout (by simp [Op.successors, hne.symm])
  case old =>
    refine State.Outlined.passes h.brackets hs fun r hr hm => ?_
    have hc := (hv.isOpen_continuation hr).created
    have hg := (State.open_grow (hv.isOpen_continuation hr)).created
    cases he <;> simp [Op.successors, Function.ne_freshBlock hc, Function.ne_freshBlock hg] at hm

section Start

variable (hv : s.Valid cx dom calls) (h : s.Outlined k)
include hv h

theorem startBlock_mirrors : Mirrors (startBlock type) s (Check.step cx.environment (.block type)) k
    fun _ t _ l => t.Outlined l := by
  have hp : perform (.jump s.function.freshBlock) s.grow.grow = _ := perform_eq_ok h.ready.grow.grow
  cases type
  case signature => exact .fail
  all_goals
    refine .left rfl (.left rfl (.left rfl (.left hp ?_)))
    exact h.enter hv .block .jump (by simp)

theorem startLoop_mirrors : Mirrors (startLoop type) s (Check.step cx.environment (.loop type)) k
    fun _ t _ l => t.Outlined l := by
  have hp : perform (.jump s.function.freshBlock) s.grow.grow = _ := perform_eq_ok h.ready.grow.grow
  cases type
  case signature => exact .fail
  all_goals
    refine .left rfl (.left rfl (.left rfl (.left hp ?_)))
    exact h.enter hv .loop .jump (by simp)

theorem startIf_mirrors :
    Mirrors (startIf opcode type) s (Check.step cx.environment (.if_ type)) k
      fun _ t _ l => t.Outlined l := by
  refine ((popCondition_mirrors h).and_meets (popCondition_meets hv)).bind fun c t _ l hc => ?_
  obtain ⟨lhs, cond, rhs⟩ := c
  obtain ⟨ht, hi, ty, hl, hr⟩ := hc
  have hp : perform (.branch lhs cond rhs t.function.freshBlock t.grow.function.freshBlock)
      t.grow.grow = _ := perform_eq_ok ht.ready.grow.grow
  refine .left rfl (.left rfl (.left hp (.left rfl ?_)))
  cases type
  case signature => exact .fail
  all_goals exact ht.enter hi.valid (.if_ lhs cond rhs) (.branch hl hr) (by simp)

end Start

theorem forall₂_getElem? {α β : Type} {R : α → β → Prop} {as : List α} {bs : List β}
    (h : List.Forall₂ R as bs) (n : Nat) : Option.Rel R as[n]? bs[n]? := by
  induction h generalizing n
  case nil => exact .none
  case cons hr _ ih =>
    cases n
    case zero => exact .some hr
    case succ n => exact ih n

-- The brackets `bs` of the regions `rs`, once the active block is closed and leads to `target`.
def State.Leads (s : State) (dom : Scope) (target : BlockId) (rs : List Region) (bs : List Bracket) :
    Prop :=
  ∀ ⦃op fresh g dom'⦄, s.function.Sealed dom s.block op fresh g dom' → target ∈ op.successors →
    (∀ b ∈ op.successors, b = target ∨ b ∈ fresh) → List.Forall₂ (Region.Outlined g) rs bs

section Leave

variable (hv : s.Valid cx dom calls) (h : s.Outlined k) (hl : s.isDead = false)
include hv h

theorem State.Outlined.leads_header {header : BlockId} (hr : s.regions[depth]? = some r)
    (hk : r.kind = .loop header) : s.Leads dom header s.regions k.brackets := by
  intro op fresh g dom' hs hm hsub
  refine State.Outlined.passes h.brackets hs fun o ho hb => ?_
  rcases hsub _ hb with hb | hb
  · exact hv.headers r (List.mem_of_getElem? hr) _ hk o ho hb
  · exact Nat.not_lt_of_le (hs.created _ hb) (hv.isOpen_continuation ho).created

theorem State.Outlined.leads_continuation (hr : s.regions[depth]? = some r)
    (hb : k.brackets[depth]? = some b) (hh : s.Hands r.result after) :
    s.Leads dom r.continuation (s.regions.set depth (r.exit s.block after))
      (k.brackets.set depth b.leave) := by
  intro op fresh g dom' hs hm hsub
  obtain ⟨hlt, hr⟩ := List.getElem?_eq_some_iff.mp hr
  obtain ⟨hlt', hb⟩ := List.getElem?_eq_some_iff.mp hb
  have hlen := h.brackets.length_eq
  refine List.forall₂_iff_get.mpr ⟨by simpa using hlen, fun n hn hn' => ?_⟩
  have hn : n < s.regions.length := by simpa using hn
  have ho : Region.Outlined s.function s.regions[n] k.brackets[n] := h.brackets.get hn (hlen ▸ hn)
  simp only [List.get_eq_getElem, List.getElem_set]
  by_cases hd : depth = n
  case pos =>
    subst hd
    rw [if_pos rfl, if_pos rfl]
    rw [hr, hb] at ho
    exact ho.exit hh (hs.mem_successors_iff.mpr (.inr ⟨rfl, hm⟩))
  case neg =>
    rw [if_neg hd, if_neg hd]
    refine ho.pass hs fun hc => ?_
    rcases hsub _ hc with hc | hc
    · refine hd ((List.getElem?_inj (by simpa) (List.nodup_cons.mp hv.nodup).2).mp ?_)
      simp [hr, hc, hlt, hn]
    · exact Nat.not_lt_of_le (hs.created _ hc) (hv.isOpen_continuation (List.getElem_mem hn)).created

-- Both find the body, a region that can be left with what is on the stack, or none.
theorem branchTarget_mirrors : Mirrors (branchTarget opcode depth) s (Check.leave depth) k
    fun x t isBody l => depth = s.regions.length ∧ x = .body ∧ isBody = true ∧ t = s ∧ l = k ∨
      ∃ target rs bs, x = .block target ∧ isBody = false ∧ s.Exits depth target rs ∧
        t = { s with regions := rs } ∧ l = { k with brackets := bs } ∧ s.Leads dom target rs bs := by
  refine .get (.ite ?_ (fun hd => .pure (.inl ⟨hd, rfl, rfl, rfl, rfl⟩)) fun _ => ?_)
  · rw [h.brackets.length_eq]
  have hrel := forall₂_getElem? h.brackets depth
  cases hr : s.regions[depth]? <;> cases hb : k.brackets[depth]? <;> rw [hr, hb] at hrel <;>
    cases hrel
  case none.none.none => exact .fail
  case some.some.some r b ho =>
    by_cases hloop : ∃ header, r.kind = .loop header
    case pos =>
      obtain ⟨header, hk⟩ := hloop
      have hshape : b.shape = .loop := by rw [ho.shape, hk, RegionKind.shape]
      simp only [hk, hshape, ↓reduceIte]
      exact .pure (.inr ⟨header, s.regions, k.brackets, rfl, rfl, .restart hr hk, rfl, rfl,
        h.leads_header hv hr hk⟩)
    case neg =>
      have hk (header : BlockId) : r.kind ≠ .loop header := fun hk => hloop ⟨header, hk⟩
      have hshape : b.shape ≠ .loop := by
        rw [ho.shape]
        cases hr : r.kind <;> simp [RegionKind.shape]
        exact hk _ hr
      have hleft {after} (hh : s.Hands r.result after) := State.Exits.leave hr hk hh
      have hleads {after} (hh : s.Hands r.result after) := h.leads_continuation hv hr hb hh
      have hb := ho.result
      cases hres : r.result <;> rw [hres] at hb <;> simp only [hshape, hres, hb, ↓reduceIte, Option.map]
      case none =>
        have hh : s.Hands r.result none := by rw [hres]; exact .nothing
        refine .left rfl (.left rfl ?_)
        exact Or.inr ⟨_, _, _, rfl, rfl, hleft hh, rfl, rfl, hleads hh⟩
      case some res =>
        refine (peekValue_mirrors h).bind fun v t ty l hv => ?_
        obtain ⟨rfl, rfl, hs, hv⟩ := hv
        simp only [fill, map_eq_pure_bind, bind_assoc]
        refine .expectType hv fun he => .left rfl (.left rfl ?_)
        have hh : t.Hands (some res) _ := .value hs (he ▸ hv)
        rw [← hres] at hh
        exact Or.inr ⟨_, _, _, rfl, rfl, hleft hh, rfl, rfl, hleads hh⟩

end Leave

theorem State.Outlined.die (hr : u.die.Ready)
    (hs : List.Forall₂ (Operand.Typed u.die.function) u.stack k.stack)
    (hb : List.Forall₂ (Region.Outlined u.die.function) u.regions k.brackets)
    (he : k.isEnded = u.isEnded) :
    u.die.Outlined { k with stack := k.stack.drop (k.stack.length - k.floor), isDead := true } := by
  refine ⟨hr, ?_, hb, rfl, he⟩
  rw [Outline.floor_eq hb, ← hs.length_eq]
  exact List.forall₂_drop _ hs

section Leave

variable (hv : s.Valid cx dom calls) (h : s.Outlined k) (hl : s.isDead = false)
include hv h hl

-- Both return with the value on top of the stack, if there is to be one.
theorem emitReturn_mirrors :
    Mirrors (emitReturn cx.result opcode) s (Check.conclude cx.environment.result) k
      fun _ t _ l => ∃ u op, s.Returns cx u op ∧ t = u.emit "" none op ∧ u.Outlined l := by
  simp only [Context.environment]
  cases hr : cx.result
  case none =>
    rw [Mirrors, emitReturn, perform_eq_ok h.ready]
    exact ⟨s, .exit, ⟨.nothing hr, .inl rfl⟩, rfl, h⟩
  case some ty =>
    refine .of_bind_pure (((popTyped_mirrors h).and_meets (popTyped_live_meets hv hl)).bind ?_)
    rintro v t _ l ⟨⟨ht, _⟩, rest, hs, hf, rfl, hu⟩
    rw [Mirrors, perform_eq_ok ht.ready]
    have hy : s.Yields cx (.ret v) := .value hr (by simp [hs]) hu.hasType
    exact ⟨_, .ret v, ⟨hy, .inr ⟨_, rest, hs, hf, rfl⟩⟩, rfl, ht⟩

omit h in
-- The code behind a return is dead.
theorem State.Outlined.die_of_returns (hr : s.Returns cx u op) (hu : u.Outlined l) :
    (u.emit "" none op).die.Outlined
      { l with stack := l.stack.drop (l.stack.length - l.floor), isDead := true } := by
  have hn := hr.yields.successors
  have hf : u.function = s.function ∧ u.block = s.block ∧ u.regions = s.regions := by
    rcases hr.popped with rfl | ⟨_, _, _, _, rfl⟩ <;> exact ⟨rfl, rfl, rfl⟩
  obtain ⟨hf, hb, hreg⟩ := hf
  have hs : s.function.Sealed dom s.block op [] (u.emit "" none op).function dom := by
    rw [State.emit, hf, hb]
    exact .close hv.draft hv.scope hv.isOpen hr.yields.isTerminator (by simp [hn]) (by simp [hn])
      (hr.yields.fits hv .refl subset_rfl)
  have hs := hv.sealed_die hs
  obtain ⟨_, ht⟩ := State.Leaves.valid hv hl (.returns rfl hr)
  refine .die ht.ready ?stack ?brackets hu.isEnded
  case stack => exact hu.stack.imp fun _ _ ho => (hf ▸ ho).mono hs.grows.keeps
  case brackets =>
    refine State.Outlined.passes (s := s) ?_ hs (by simp [hn])
    exact hf ▸ hu.brackets

-- The code behind a jump is dead.
theorem State.Outlined.die_of_exits {rs : List Region} {bs : List Bracket}
    (he : s.Exits depth target rs) (hb : s.Leads dom target rs bs) :
    ({ s with regions := rs }.emit "" none (.jump target)).die.Outlined
      { k with
        stack := k.stack.drop (k.stack.length - { k with brackets := bs }.floor)
        brackets := bs
        isDead := true } := by
  have ht := he.isTarget hv hl
  have hs : s.function.Sealed dom s.block (.jump target) []
      ({ s with regions := rs }.emit "" none (.jump target)).function dom :=
    .close hv.draft hv.scope hv.isOpen rfl (by simp [Op.successors])
      (by simpa [Op.successors] using ht) .jump
  have hs := hv.sealed_die hs
  obtain ⟨_, hd⟩ := State.Leaves.valid hv hl (.exits he)
  refine .die (k := { k with brackets := bs }) hd.ready ?_ ?_ h.isEnded
  · exact h.stack.imp fun _ _ => .mono hs.grows.keeps
  · exact hb hs (by simp [Op.successors]) (by simp [Op.successors])

end Leave

section Leave

variable (hv : s.Valid cx dom calls) (h : s.Outlined k)
include hv h

theorem branch_mirrors : Mirrors (branch cx opcode depth) s (Check.branch cx.environment depth) k
    fun _ t _ l => t.Outlined l := by
  refine .get (.ite (by rw [h.isDead]) (fun _ => .pure h) fun hl => ?_)
  rw [Bool.not_eq_true] at hl
  refine (branchTarget_mirrors hv h).bind ?_
  rintro _ _ _ _ (⟨_, rfl, rfl, rfl, rfl⟩ | ⟨target, rs, bs, rfl, rfl, he, rfl, rfl, hb⟩)
  · refine (emitReturn_mirrors hv h hl).bind ?_
    rintro _ _ _ l ⟨u, op, hr, rfl, hu⟩
    exact hu.die_of_returns hv hl hr
  · have hp : perform (.jump target) { s with regions := rs } = _ :=
      perform_eq_ok ⟨h.ready.wf, h.ready.isOpen⟩
    exact .left hp (h.die_of_exits hv hl he hb)

theorem return_mirrors : Mirrors (return_ cx opcode) s (Check.return_ cx.environment) k
    fun _ t _ l => t.Outlined l := by
  refine .get (.ite (by rw [h.isDead]) (fun _ => .pure h) fun hl => ?_)
  rw [Bool.not_eq_true] at hl
  refine (emitReturn_mirrors hv h hl).bind ?_
  rintro _ _ _ l ⟨u, op, hr, rfl, hu⟩
  exact hu.die_of_returns hv hl hr

-- The active block is closed and leads to fresh blocks only.
theorem State.Outlined.of_fresh (hs : s.function.Sealed dom s.block op fresh t.function dom')
    (hsub : ∀ b ∈ op.successors, s.function.blocks.size ≤ b.index) (hr : t.Ready) (hst : t.stack = s.stack)
    (hrs : t.regions = s.regions) (hd : t.isDead = s.isDead) (he : t.isEnded = s.isEnded) :
    t.Outlined k := by
  refine ⟨hr, ?stack, ?brackets, h.isDead.trans hd.symm, h.isEnded.trans he.symm⟩
  case stack =>
    rw [hst]
    exact h.stack.imp fun _ _ => .mono hs.grows.keeps
  case brackets =>
    rw [hrs]
    refine State.Outlined.passes h.brackets hs fun r hr hm => ?_
    exact Nat.not_lt_of_le (hsub _ hm) (hv.isOpen_continuation hr).created

end Leave

-- Both look at the value on top of the stack, if there is to be one.
theorem emitReturnKeep_mirrors (h : s.Outlined k) :
    Mirrors (emitReturnKeep cx.result opcode) s (Check.previewResult cx.environment.result) k
      fun _ t _ l => ∃ op, s.Yields cx op ∧ t = s.emit "" none op ∧ l = k := by
  simp only [Context.environment]
  cases hr : cx.result
  case none =>
    rw [Mirrors, emitReturnKeep, perform_eq_ok h.ready]
    exact ⟨.exit, .nothing hr, rfl, rfl⟩
  case some ty =>
    refine (peekValue_mirrors h).bind ?_
    rintro v _ _ _ ⟨rfl, rfl, hs, hv⟩
    refine .of_bind_pure (.expectType hv fun hty => ?_)
    rw [Mirrors, perform_eq_ok h.ready]
    exact ⟨.ret v, .value hr hs (hty ▸ hv), rfl, rfl⟩

section Fork

variable {lhs rhs : ValueId} {cond : Comparison} {ty : Scalar}
variable (hv : s.Valid cx dom calls) (h : s.Outlined k) (hl : s.isDead = false)
variable (hlhs : s.function.Usable dom s.block lhs ty) (hrhs : s.function.Usable dom s.block rhs ty)
include hv h hl hlhs hrhs

-- The code behind a conditional jump goes on in a fresh block.
theorem State.Outlined.fork_of_exits {rs : List Region} {bs : List Bracket}
    (he : s.Exits depth target rs) (hb : s.Leads dom target rs bs) :
    State.Outlined { { s with regions := rs }.grow.emit "" none
        (.branch lhs cond rhs target s.function.freshBlock) with block := s.function.freshBlock }
      { k with brackets := bs } := by
  have ht := he.isTarget hv hl
  have hf : s.function.Fits dom s.block none (.branch lhs cond rhs target s.function.freshBlock) :=
    .branch hlhs hrhs
  have hs := hv.behind subset_rfl (fun _ => hv.scope.root hv.isOpen.created) rfl
    (by simpa [Op.successors] using Function.ne_freshBlock ht.created)
    (by simp [Op.successors, ht]) hf
  have hfork : s.Forks cx lhs cond rhs depth _ := .exits he
  obtain ⟨_, hd⟩ := hfork.valid hv hl hlhs hrhs
  exact ⟨hd.ready, h.stack.imp fun _ _ => .mono hs.grows.keeps,
    hb hs (by simp [Op.successors]) (by simp [Op.successors]), h.isDead, h.isEnded⟩

-- The same with a conditional return, which has a block of its own.
theorem return_fork_mirrors (hd : depth = s.regions.length) :
    Mirrors
      (do
        emitReturnKeep cx.result opcode
        setBlock s.grow.function.freshBlock)
      (s.fork (.branch lhs cond rhs s.function.freshBlock s.grow.function.freshBlock))
      (Check.previewResult cx.environment.result) k fun _ t _ l => t.Outlined l := by
  have hne := s.freshBlock_ne
  have hf : s.function.Fits dom s.block none
      (.branch lhs cond rhs s.function.freshBlock s.grow.function.freshBlock) := .branch hlhs hrhs
  obtain ⟨dom', hs, hi, _⟩ := hv.fork rfl (by simp [Op.successors, hne]) (by simp [Op.successors]) hf
  have hfresh : ∀ b ∈ [s.function.freshBlock, s.grow.function.freshBlock],
      s.function.blocks.size ≤ b.index := hs.created
  have hfork := State.Outlined.of_fresh hv h (t := s.fork _) hs hfresh
    ⟨hs.draft.wf, hs.open_iff.mpr (.inr (by simp [State.fork]))⟩ rfl rfl rfl rfl
  refine .of_bind_pure ((emitReturnKeep_mirrors hfork).bind ?_)
  rintro _ _ _ _ ⟨op, hy, rfl, rfl⟩
  have hy := hy.of_grows hv hs.grows rfl
  have hs := hs.close_fresh hv.isOpen.created (by simpa using hne) hy.isTerminator hy.successors
    (hy.fits hv hs.evolves (hi ▸ Set.subset_insert ..))
  have hfork : s.Forks cx lhs cond rhs depth _ := .returns hd hy
  obtain ⟨_, ht⟩ := hfork.valid hv hl hlhs hrhs
  exact State.Outlined.of_fresh hv h hs hfresh ht.ready rfl rfl rfl rfl

end Fork

theorem branchIf_mirrors (hv : s.Valid cx dom calls) (h : s.Outlined k) :
    Mirrors (branchIf cx opcode depth) s (Check.branchIf cx.environment depth) k
      fun _ t _ l => t.Outlined l := by
  refine ((popCondition_mirrors h).and_meets (popCondition_meets hv)).bind ?_
  rintro ⟨lhs, cond, rhs⟩ u _ l ⟨hu, hi, ty, hlhs, hrhs⟩
  refine .get (.ite (by rw [hu.isDead]) (fun _ => .pure hu) fun hl => ?_)
  rw [Bool.not_eq_true] at hl
  refine (branchTarget_mirrors hi.valid hu).bind ?_
  rintro _ t _ _ (⟨hd, rfl, rfl, rfl, rfl⟩ | ⟨target, rs, bs, rfl, rfl, he, rfl, rfl, hb⟩)
  case inl =>
    have hp : perform (.branch lhs cond rhs t.function.freshBlock t.grow.function.freshBlock)
        t.grow.grow = _ := perform_eq_ok hu.ready.grow.grow
    refine .left rfl (.left rfl (.left hp (.left rfl ?_)))
    exact return_fork_mirrors hi.valid hu hl hlhs hrhs hd
  case inr =>
    have hr : State.Ready { u with regions := rs } := ⟨hu.ready.wf, hu.ready.isOpen⟩
    have hp : perform (.branch lhs cond rhs target u.function.freshBlock)
        (State.grow { u with regions := rs }) = _ := perform_eq_ok hr.grow
    refine .left rfl (.left hp ?_)
    exact hu.fork_of_exits hi.valid hl hlhs hrhs he hb

section Finish

variable {next : BlockId} {res : Result}
variable (hu : u.Ready) (hs : List.Forall₂ (Operand.Typed u.function) u.stack k.stack)
include hu hs

omit hu in
-- Both take the result of a region off the stack, if it is all that the region left there.
theorem popResult_mirrors (hh : b.height = r.height) :
    Mirrors (popResult r res) u
      (do
        guard (k.stack.length - b.height = 1)
        guard (k.stack.head? = some (.value res.type))) k
      fun res' t _ l => u.Hands (some res) (some res') ∧
        t = { u with stack := u.below r.height } ∧ l = k := by
  simp only [popResult]
  refine .left rfl (.of_bind_pure ?_)
  rw [bind_assoc]
  refine .unless (by rw [hh, hs.length_eq]) fun hlen => ?_
  rw [hh, ← hs.length_eq] at hlen
  have hbelow : u.below r.height = u.stack.tail := by rw [State.below, hlen, List.drop_one]
  split
  case h_1 v rest hstack =>
    rw [hstack] at hs
    obtain ⟨item, items, ho, _, hk⟩ := List.forall₂_cons_left_iff.mp hs
    cases ho
    case value ty hv =>
      simp only [hk, List.head?_cons, Option.some.injEq, Item.value.injEq]
      refine .left rfl ?_
      simp only [fill]
      refine .expectType (s := { u with stack := rest }) hv fun hty => ?_
      subst hty
      refine ⟨.value (by rw [hstack, List.head?_cons]) hv, ?_, rfl⟩
      rw [hbelow, hstack]
      rfl
  case h_2 hne =>
    have hhead : k.stack.head? ≠ some (.value res.type) := by
      intro hk
      obtain ⟨items, hk⟩ := List.head?_eq_some_iff.mp hk
      rw [hk] at hs
      obtain ⟨o, os, ho, _, hstack⟩ := List.forall₂_cons_right_iff.mp hs
      cases ho
      exact hne _ _ hstack
    rw [guard_bind_of_neg hhead]
    exact .fail

theorem closeRegion_mirrors (hd : k.isDead = u.isDead) (hb : r.Outlined f b) :
    Mirrors (closeRegion r next) u (Check.finish b) k fun after t _ l => ∃ op,
      u.Ends r next op after ∧ t = { u with stack := u.below r.height }.emit "" none op ∧
      l = { k with stack := k.stack.drop (k.stack.length - b.height) } := by
  have hperform (op : Op) : perform op { u with stack := u.below r.height } =
      .ok () ({ u with stack := u.below r.height }.emit "" none op) :=
    perform_eq_ok ⟨hu.wf, hu.isOpen⟩
  refine .get (.ite (by rw [hd]) (fun hdead => ?dead) fun hlive => ?live)
  case dead =>
    refine .left rfl (.left (hperform .exit) ?_)
    exact ⟨.exit, .dead hdead, rfl, rfl⟩
  case live =>
    rw [Bool.not_eq_true] at hlive
    have hresult := hb.result
    cases hres : r.result <;> rw [hres] at hresult <;> simp only [hresult, Option.map]
    case none =>
      refine .left rfl (.left rfl (.left (hperform (.jump next)) ?_))
      exact ⟨.jump next, .live hlive (by rw [hres]; exact .nothing), rfl, rfl⟩
    case some res =>
      rw [← bind_assoc]
      refine (popResult_mirrors hs hb.height).map.bind ?_
      rintro _ _ _ _ ⟨res', ⟨hh, rfl, rfl⟩, rfl⟩
      have htruncate : truncate r.height { u with stack := u.below r.height } =
          .ok () { u with stack := State.below { u with stack := u.below r.height } r.height } := rfl
      rw [State.below_self] at htruncate
      refine .left htruncate (.left (hperform (.jump next)) ?_)
      exact ⟨.jump next, .live hlive (by rw [hres]; exact hh), rfl, rfl⟩

end Finish

theorem State.Ends.map_type {next : BlockId} (he : s.Ends r next op after) :
    after.map Result.type = r.result.map Result.type := by
  cases he
  case live hh => exact hh.type
  case dead => rfl

theorem State.Ends.mem_successors_iff {next : BlockId} (he : s.Ends r next op after) :
    next ∈ op.successors ↔ s.isDead = false := by
  cases he <;> simp_all [Op.successors]

theorem State.Outlined.below {height : Nat}
    (hs : List.Forall₂ (Operand.Typed f) s.stack k.stack) :
    List.Forall₂ (Operand.Typed f) (s.below height) (k.stack.drop (k.stack.length - height)) := by
  rw [State.below, hs.length_eq]
  exact List.forall₂_drop _ hs

theorem State.Outlined.receive (h : s.Outlined k) (after : Option Result) : (s.receive after).Outlined
    { k with stack := ((after.map Result.type).map Item.value).toList ++ k.stack } := by
  cases after
  case none => exact h
  case some res =>
    simp only [State.receive]
    split
    case isTrue => exact (h.emit rfl).cons (.value State.hasType_emit)
    case isFalse => exact ((h.journal _).emit rfl).cons (.value State.hasType_emit)

section End

variable (hv : s.Valid cx dom calls) (h : s.Outlined k) (hr : s.regions = r :: outer)
variable {bs : List Bracket} (hb : k.brackets = b :: bs)
include hv h hr hb

theorem State.Outlined.resume (he : s.Ends r r.continuation op after) :
    (s.resume r outer op).Outlined
      { k with
        stack := k.stack.drop (k.stack.length - b.height)
        brackets := bs
        isDead := !(b.isLive && (b.isLeft || b.shape == .if_ || !k.isDead)) } := by
  have hs := State.Ends.isSealed hv hr he
  have ht := State.Ends.valid_resume hv hr he
  have hbrackets := h.brackets
  rw [hr, hb] at hbrackets
  obtain ⟨hro, hrest⟩ := List.forall₂_cons.mp hbrackets
  refine ⟨ht.ready, ?stack, ?brackets, ?isDead, h.isEnded⟩
  case stack =>
    rw [hro.height]
    exact State.Outlined.below (h.stack.imp fun _ _ => .mono hs.grows.keeps)
  case brackets =>
    refine State.Outlined.passes hrest hs fun o ho hm => ?_
    have hnd := (List.nodup_cons.mp (hr ▸ hv.nodup)).2
    exact (List.nodup_cons.mp hnd).1 (he.eq_of_mem_successors hm ▸ List.mem_map_of_mem ho)
  case isDead =>
    have hleft : (b.isLeft || b.shape == .if_ || !k.isDead) = true ↔
        ∃ p, r.continuation ∈ (s.function.emit s.block "" none op).successors p := by
      simp only [hs.mem_successors_iff, he.mem_successors_iff, exists_or, exists_eq_left,
        Bool.or_eq_true, Bool.not_eq_true', beq_iff_eq, hro.isLeft, hro.shape, h.isDead]
      refine or_congr_left ?_
      unfold Region.IsLeft
      split
      case h_1 breaks hk =>
        obtain ⟨_, _, c, _, hc⟩ := (hv.regions r (by simp [hr])).branched hk
        exact iff_of_true (.inr (by rw [hk, RegionKind.shape])) ⟨c, (hc c).mpr (.inl rfl)⟩
      case h_2 hk =>
        refine or_iff_left fun hshape => ?_
        cases hkind : r.kind <;> simp [hkind, RegionKind.shape] at hshape
        exact hk _ hkind
    rw [← hs.draft.wf.predecessors_isEmpty_eq_false_iff] at hleft
    simp only [State.resume, hro.isLive, Bool.not_and]
    congr 1
    rw [Bool.eq_iff_iff, Bool.not_eq_true', ← Bool.not_eq_true, hleft, Bool.not_eq_false]

theorem State.Outlined.turn {breaks : List BlockId} (hk : r.kind = .if_ breaks)
    (he : s.Ends r s.function.freshBlock op after)
    (hg : breaks.forM (Function.retarget · r.continuation s.function.freshBlock)
      (s.grow.emit "" none op).function = .ok () g) :
    (s.turn r outer after g).Outlined
      { k with
        stack := k.stack.drop (k.stack.length - b.height)
        brackets := { b with shape := .else_, isLeft := b.isLeft || !k.isDead } :: bs
        isDead := !b.isLive } := by
  have hs := State.Ends.sealed_turn hv hr he
  obtain ⟨g', hg', hm⟩ := State.Ends.exists_moved hv hr he hk
  cases hg.symm.trans hg'
  have hsucc {q} := hv.mem_successors_turn_iff hr hk hs he hm (q := q)
  obtain ⟨_, ht⟩ := State.Ends.valid_turn hv hr hk he hg
  have hbrackets := h.brackets
  rw [hr, hb] at hbrackets
  obtain ⟨hro, hrest⟩ := List.forall₂_cons.mp hbrackets
  obtain ⟨_, _, c, hcn, hc⟩ := (hv.regions r (by simp [hr])).branched hk
  refine ⟨ht.ready, ?stack, .cons ⟨rfl, ?result, hro.height, hro.isLive, ?isLeft⟩ ?outer, ?isDead,
    h.isEnded⟩
  case stack =>
    rw [hro.height]
    exact State.Outlined.below (h.stack.imp fun _ _ => .mono (hs.evolves.trans hm.evolves).keeps)
  case result => exact hro.result.trans he.map_type.symm
  case isLeft =>
    have hleft : r.IsLeft s.function ↔ ∃ q, q ∈ breaks := by
      rw [Region.IsLeft, hk]
      exact ⟨List.exists_mem_of_ne_nil _, fun hq => List.ne_nil_of_mem hq.choose_spec⟩
    have hnext : (∃ q, s.function.freshBlock ∈ g.successors q) ↔
        (∃ q, q ∈ breaks) ∨ s.isDead = false := by
      simp only [hsucc, exists_or, exists_eq_left]
    refine Iff.trans ?_ hnext.symm
    rw [Bool.or_eq_true, hro.isLeft, hleft, Bool.not_eq_true', h.isDead]
  case outer =>
    have hnd := (List.nodup_cons.mp (hr ▸ hv.nodup)).2
    have hmem {o} (ho : o ∈ outer) : o ∈ s.regions := by simp [hr, ho]
    have hold {o} (ho : o ∈ outer) : o.continuation ≠ r.continuation := fun he =>
      (List.nodup_cons.mp hnd).1 (he ▸ List.mem_map_of_mem ho)
    have hnew {o} (ho : o ∈ outer) : o.continuation ≠ s.function.freshBlock :=
      Function.ne_freshBlock (hv.isOpen_continuation (hmem ho)).created
    refine ((List.forall₂_and_left ..).mpr ⟨fun o ho => ho, hrest⟩).imp fun o _ ho => ?_
    have hpass := ho.2.pass hs fun hm => hnew ho.1 (he.eq_of_mem_successors hm)
    refine hpass.congr fun q => (hm.mem_successors_iff hs.draft).trans ?_
    have := hold ho.1
    have := hnew ho.1
    grind
  case isDead =>
    have hpred : (g.predecessors r.continuation).isEmpty = false := by
      refine hm.draft.wf.predecessors_isEmpty_eq_false_iff.mpr ⟨c, ?_⟩
      refine (hm.mem_successors_iff hs.draft).mpr (.inl ⟨hcn, ?_⟩)
      exact hs.mem_successors_iff.mpr (.inl ((hc c).mpr (.inl rfl)))
    simp only [State.turn, hpred, Bool.or_false, hro.isLive]

end End

theorem Mirrors.pushResult {res : Result} {y : Check Unit}
    {Q : Unit → State → Unit → Outline → Prop} (h : s.Ready)
    (hm : Mirrors (Pure.pure ()) (s.receive (some res)) y k Q) :
    Mirrors (Direct.pushResult res) s y k Q := by
  simp only [Direct.pushResult]
  simp only [State.receive] at hm
  split
  case isTrue hi =>
    rw [if_pos hi] at hm
    exact .left (deadOperand_eq_ok h) hm
  case isFalse hi =>
    rw [if_neg hi] at hm
    exact .left rfl (.left (define_eq_ok ⟨h.wf, h.isOpen⟩) hm)

theorem close_mirrors (hv : s.Valid cx dom calls) (h : s.Outlined k) :
    Mirrors close s Check.close k fun _ t _ l => t.Outlined l := by
  refine .get ?_
  have hbrackets := h.brackets
  cases hr : s.regions <;> cases hb : k.brackets <;> rw [hr, hb] at hbrackets <;>
    cases hbrackets
  case nil.nil.nil => exact ⟨⟨h.ready.wf, h.ready.isOpen⟩, h.stack, .nil, h.isDead, rfl⟩
  case cons.cons.cons r outer b bs hro hrest =>
    simp only
    split
    case h_1 breaks res hk hres =>
      have hif : ¬(b.shape = .if_ → b.result = none) := by
        simp [hro.shape, hro.result, hk, hres, RegionKind.shape]
      rw [guard_bind_of_neg hif]
      exact .fail
    case h_2 hi =>
      have hif : b.shape = .if_ → b.result = none := by
        intro hshape
        rw [hro.shape] at hshape
        cases hk : r.kind <;> simp [hk, RegionKind.shape] at hshape
        cases hres : r.result
        case none => simp [hro.result, hres]
        case some res => exact absurd hres (hi _ _ hk)
      rw [guard_bind_of_pos hif]
      let u : State := { s with regions := outer }
      refine .left (t := u) rfl ?_
      refine (closeRegion_mirrors (u := u) ⟨h.ready.wf, h.ready.isOpen⟩ h.stack h.isDead hro).bind ?_
      rintro after _ _ _ ⟨op, he, rfl, rfl⟩
      have he : s.Ends r r.continuation op after := .congr (u := u) rfl rfl rfl (fun _ => rfl) he
      have ht := h.resume hv hr hb he
      have hreceive := ht.receive after
      rw [he.map_type, ← hro.result] at hreceive
      refine .left rfl ?_
      cases after
      case none => exact hreceive
      case some => exact .pushResult ht.ready hreceive

theorem startElse_mirrors (hv : s.Valid cx dom calls) (h : s.Outlined k) :
    Mirrors startElse s Check.turn k fun _ t _ l => t.Outlined l := by
  refine .get ?_
  have hbrackets := h.brackets
  cases hr : s.regions <;> cases hb : k.brackets <;> rw [hr, hb] at hbrackets <;>
    cases hbrackets
  case nil.nil.nil => exact .fail
  case cons.cons.cons r outer b bs hro hrest =>
    simp only
    split
    case h_1 breaks hk =>
      have hshape : b.shape = .if_ := by rw [hro.shape, hk, RegionKind.shape]
      rw [guard_bind_of_pos hshape]
      let u : State := State.grow { s with regions := outer }
      refine .left rfl (.left (t := u) rfl ?_)
      have hst : List.Forall₂ (Operand.Typed u.function) u.stack k.stack :=
        h.stack.imp fun _ _ => .mono .addBlock
      have hready : u.Ready :=
        State.Ready.grow (s := { s with regions := outer }) ⟨h.ready.wf, h.ready.isOpen⟩
      refine (closeRegion_mirrors hready hst h.isDead hro).bind ?_
      rintro after _ _ _ ⟨op, he, rfl, rfl⟩
      have he : s.Ends r s.function.freshBlock op after :=
        .congr (u := u) rfl rfl rfl (fun _ => rfl) he
      obtain ⟨g, hg, _⟩ := State.Ends.exists_moved hv hr he hk
      have hm : retargetAll breaks r.continuation s.function.freshBlock
          ({ u with stack := u.below r.height }.emit "" none op) = _ := retargetAll_eq_ok hg
      exact .left hm (.left rfl (h.turn hv hr hb hk he hg))
    case h_2 hk =>
      have hshape : b.shape ≠ .if_ := by
        rw [hro.shape]
        cases hkind : r.kind <;> simp [RegionKind.shape]
        exact hk _ hkind
      rw [guard_bind_of_neg hshape]
      exact .fail

theorem step_mirrors {i : Bytecode.Instruction} (hv : s.Valid cx dom calls) (h : s.Outlined k) :
    Mirrors (step cx i) s (Check.step cx.environment i) k fun _ t _ l => t.Outlined l := by
  cases i
  case block => exact startBlock_mirrors hv h
  case loop => exact startLoop_mirrors hv h
  case if_ => exact startIf_mirrors hv h
  case else_ => exact startElse_mirrors hv h
  case end_ => exact close_mirrors hv h
  case br => exact branch_mirrors hv h
  case brIf => exact branchIf_mirrors hv h
  case return_ => exact return_mirrors hv h
  all_goals exact step_inside_mirrors h trivial

end StackCompiler.Lowering.Direct
