import StackCompiler.Proofs.Ssa.History
import StackCompiler.Proofs.Ssa.Seal
import StackCompiler.Proofs.Ssa.Soundness

-- Dead blocks keep to themselves: no edge leads from them to live ones, and what was made up for an
-- operand in dead code stays there. Both are kept up while a function is built.

namespace StackCompiler.Ssa.Function

variable {e f g : Function} {dom dom' : Scope} {b p old new : BlockId} {op : Op}
variable {name : String} {type : Option Scalar} {fresh sources : List BlockId}

-- Only live blocks lead to `b`.
def Guarded (f : Function) (b : BlockId) : Prop :=
  ∀ p, b ∈ f.successors p → f.Reaches p

-- Block `b` has an operand that was made up.
def Padded (f : Function) (b : BlockId) : Prop :=
  ∃ v d, f.value? v = some d ∧ d.name = "undef" ∧ d.block = some b

structure Confined (f : Function) : Prop where
  guarded : ∀ {b}, f.Reaches b → f.Guarded b
  plain : ∀ {b}, f.Reaches b → ¬f.Padded b

-- From `f` to `g`, dead blocks go on keeping to themselves, and stay away from the blocks that only
-- live ones led to, whether or not any did.
structure Carries (f g : Function) : Prop where
  size : f.blocks.size ≤ g.blocks.size
  guarded : ∀ {b}, b.index < f.blocks.size → f.Guarded b → g.Guarded b
  confined : f.Confined → g.Confined

theorem Carries.refl (f : Function) : f.Carries f :=
  ⟨Nat.le_refl _, fun _ h => h, fun h => h⟩

theorem Carries.trans (h₁ : e.Carries f) (h₂ : f.Carries g) : e.Carries g where
  size := Nat.le_trans h₁.size h₂.size
  guarded hc h := h₂.guarded (Nat.lt_of_lt_of_le hc h₁.size) (h₁.guarded hc h)
  confined h := h₂.confined (h₁.confined h)

theorem Linked.guarded_of_not_created (h : f.Linked) (hc : f.blocks.size ≤ b.index) : f.Guarded b :=
  fun _ hb => absurd (h.created hb) (Nat.not_lt_of_le hc)

theorem WellFormed.not_padded (h : f.WellFormed) (hi : f.insts b = []) : ¬f.Padded b := by
  rintro ⟨v, d, hd, _, hb⟩
  have hv := h.lists hd hb
  simp [hi] at hv

section Padded

theorem Padded.of_emit (h : (f.emit p name type op).Padded b) :
    f.Padded b ∨ name = "undef" ∧ b = p := by
  obtain ⟨v, d, hd, hn, hb⟩ := h
  rw [emit_value?] at hd
  split at hd
  case isTrue =>
    cases hd
    exact .inr ⟨hn, (Option.some.inj hb).symm⟩
  case isFalse => exact .inl ⟨v, d, hd, hn, hb⟩

-- A terminator has no name.
theorem Padded.of_emit_unnamed (h : (f.emit p "" type op).Padded b) : f.Padded b :=
  h.of_emit.resolve_right fun h => absurd h.1 (by decide)

theorem Padded.of_addParam {type : Scalar} (h : (f.addParam name type).2.Padded b) : f.Padded b := by
  obtain ⟨v, d, hd, hn, hb⟩ := h
  rw [addParam_value?] at hd
  split at hd
  case isTrue =>
    cases hd
    cases hb
  case isFalse => exact ⟨v, d, hd, hn, hb⟩

theorem Padded.of_retarget (hr : retarget p old new f = .ok () g) (h : g.Padded b) : f.Padded b := by
  obtain ⟨op₁, op₂, ho, _, rfl⟩ := exists_of_retarget hr
  obtain ⟨v, d, hd, hn, hb⟩ := h
  obtain ⟨_, hd, _⟩ := exists_of_redirect_value? ho hd
  exact ⟨v, _, hd, hn, hb⟩

theorem Padded.of_forM_retarget
    (hr : sources.forM (retarget · old new) f = .ok () g) (h : g.Padded b) :
    f.Padded b := by
  induction sources generalizing f
  case nil =>
    cases hr
    exact h
  case cons q sources hi =>
    rw [List.forM_eq_forM, List.forM_cons] at hr
    obtain ⟨_, _, hq, hr⟩ := exists_of_bind_eq_ok hr
    exact .of_retarget hq (hi hr)

end Padded

-- Nothing that was made up is left when the dead blocks are taken out.
theorem Confined.name_ne {v : ValueId} {d : ValueDef} (h : f.Confined) (hf : f.Draft)
    (hb : b ∈ f.trimmed.layout) (hm : (v, d) ∈ f.trimmed.instructions b) : d.name ≠ "undef" := by
  intro hn
  obtain ⟨hv, hd⟩ := mem_instructions_iff.mp hm
  obtain ⟨d', hd', hb'⟩ := hf.wf.listed hv
  cases hd.symm.trans hd'
  exact h.plain ((mem_trimmed_layout_iff hf).mp hb) ⟨v, d, hd, hn, hb'⟩

-- The edges stay as they are, and nothing is made up in a live block.
theorem Carries.of_successors_eq (hs : f.blocks.size ≤ g.blocks.size) (he : g.entry = f.entry)
    (hb : ∀ p, g.successors p = f.successors p)
    (hp : ∀ b, g.Padded b → f.Padded b ∨ ¬f.Reaches b) : f.Carries g := by
  have hr {b} : g.Reaches b ↔ f.Reaches b := reaches_congr he hb
  have hg {b} : g.Guarded b ↔ f.Guarded b := by simp only [Guarded, hb, hr]
  refine ⟨hs, fun _ => hg.mpr, fun h => ⟨fun hb => hg.mpr (h.guarded (hr.mp hb)), fun hb hpad => ?_⟩⟩
  exact (hp _ hpad).elim (h.plain (hr.mp hb)) fun hn => hn (hr.mp hb)

-- A live block may lead on to live blocks and to those that wait for live code, and a dead one only to
-- new blocks.
theorem Sealed.carries (hs : f.Sealed dom p op fresh g dom') (hf : f.Draft)
    (ho : ∀ b ∈ op.successors, f.blocks.size ≤ b.index ∨
      f.Reaches p ∧ (f.Reaches b ∨ f.Guarded b ∧ f.insts b = []))
    (hp : ∀ b, g.Padded b → f.Padded b) : f.Carries g := by
  have hlive {q} (h : f.Reaches q) : g.Reaches q := hs.reaches_iff.mpr (.inl h)
  -- The new edges to a block come from a live one, or the block is dead.
  have hguarded {b} (h : f.Guarded b) (hb : b ∈ op.successors → f.Reaches p) : g.Guarded b := by
    intro q hq
    rcases hs.mem_successors_iff.mp hq with hq | ⟨rfl, hq⟩
    · exact hlive (h q hq)
    · exact hlive (hb hq)
  refine ⟨hs.evolves.size, fun {b} hc h => hguarded h fun hb => ?created, fun h => ⟨?guarded, ?plain⟩⟩
  case created => exact ((ho b hb).resolve_left (Nat.not_le_of_lt hc)).1
  case guarded =>
    intro b hb
    rcases hs.reaches_iff.mp hb with hb | ⟨hr, hb⟩
    · have hc := hb.created hf.wf hf.linked
      exact hguarded (h.guarded hb) fun hm => ((ho b hm).resolve_left (Nat.not_le_of_lt hc)).1
    · refine hguarded ?_ fun _ => hr
      rcases ho b hb with hb | ⟨_, hb | hb⟩
      · exact hf.linked.guarded_of_not_created hb
      · exact h.guarded hb
      · exact hb.1
  case plain =>
    intro b hb hpad
    rcases hs.reaches_iff.mp hb with hb | ⟨_, hb⟩
    · exact h.plain hb (hp b hpad)
    · rcases ho b hb with hb | ⟨_, hb | hb⟩
      · exact hf.wf.not_padded (insts_eq_nil_of_not_created (Nat.not_lt_of_le hb)) (hp b hpad)
      · exact h.plain hb (hp b hpad)
      · exact hf.wf.not_padded hb.2 (hp b hpad)

-- The edges that are moved lead to a new block. Whether it is live depends on all of them.
theorem Carries.moved (h : e.Carries f) (hm : f.Moved dom old new sources g) (hf : f.Draft)
    (hc : e.blocks.size ≤ new.index) (hi : f.insts new = []) (hn : g.Reaches new → g.Guarded new)
    (hp : ∀ b, g.Padded b → f.Padded b) : e.Carries g := by
  have hguarded {b} (hb : b ≠ new) (h : f.Guarded b) : g.Guarded b := by
    intro q hq
    have hq : b ∈ f.successors q := by
      rcases (hm.mem_successors_iff hf).mp hq with ⟨_, hq⟩ | ⟨_, rfl | ⟨hq, _⟩⟩
      · exact hq
      · exact absurd rfl hb
      · exact hq
    exact hm.evolves.reaches (h q hq)
  refine ⟨Nat.le_trans h.size hm.evolves.size, fun {b} hb hg => hguarded ?_ (h.guarded hb hg), fun he => ?_⟩
  · rintro rfl
    exact absurd hb (Nat.not_lt_of_le hc)
  · have hf' := h.confined he
    refine ⟨fun {b} hb => ?guarded, fun {b} hb hpad => ?plain⟩
    case guarded =>
      by_cases hbn : b = new
      case pos => exact hbn ▸ hn (hbn ▸ hb)
      case neg => exact hguarded hbn (hf'.guarded ((hm.reaches_iff.mp hb).resolve_right fun h => hbn h.1))
    case plain =>
      rcases hm.reaches_iff.mp hb with hb | ⟨rfl, _⟩
      · exact hf'.plain hb (hp b hpad)
      · exact hf.wf.not_padded hi (hp _ hpad)

end StackCompiler.Ssa.Function
