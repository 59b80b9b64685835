import StackCompiler.Proofs.Ssa.Build

-- Paths from the entry of a function, how they change while the function is built, and the search
-- that finds the blocks they lead to.

namespace StackCompiler.Ssa

namespace Op

variable {op op' : Op} {old new b : BlockId}

theorem retarget?_isSome (h : old ∈ op.successors) : ∃ op', op.retarget? old new = some op' := by
  cases op <;> simp [successors] at h
  case jump target => exact ⟨jump new, by simp [retarget?, h]⟩
  case branch lhs cond rhs yes no =>
    by_cases hy : yes = old
    case pos => exact ⟨branch lhs cond rhs new no, by simp [retarget?, hy]⟩
    case neg =>
      have hn : no = old := by grind
      exact ⟨branch lhs cond rhs yes new, by simp [retarget?, hy, hn]⟩

section

variable (h : op.retarget? old new = some op')
include h

theorem isTerminator_of_retarget? : op'.isTerminator = true := by
  cases op <;> simp only [retarget?] at h <;> grind [isTerminator]

theorem operands_of_retarget? : op'.operands = op.operands := by
  cases op <;> simp only [retarget?] at h <;> grind [operands]

theorem mem_successors_of_retarget? (hn : op.successors.Nodup) :
    b ∈ op'.successors ↔ b = new ∨ b ∈ op.successors ∧ b ≠ old := by
  cases op <;> simp only [retarget?] at h <;> grind [successors]

theorem nodup_successors_of_retarget? (hn : op.successors.Nodup) (hb : new ∉ op.successors) :
    op'.successors.Nodup := by
  cases op <;> simp only [retarget?] at h <;> grind [successors]

end

end Op

namespace Function

-- Some path from the entry leads to the block.
inductive Reaches (f : Function) : BlockId → Prop
  | entry : f.entry = some b → Reaches f b
  | step : Reaches f p → b ∈ f.successors p → Reaches f b

variable {f g : Function} {b p : BlockId} {op op₁ : Op}

theorem Reaches.mono (he : f.entry = g.entry)
    (hs : ∀ {p b}, f.Reaches p → b ∈ f.successors p → b ∈ g.successors p) (h : f.Reaches b) :
    g.Reaches b := by
  induction h
  case entry h => exact .entry (he ▸ h)
  case step hp hb hi => exact .step hi (hs hp hb)

theorem reaches_congr (he : g.entry = f.entry) (hs : ∀ p, g.successors p = f.successors p) :
    g.Reaches b ↔ f.Reaches b where
  mp := .mono he fun _ h => hs _ ▸ h
  mpr := .mono he.symm fun _ h => hs _ ▸ h

-- The edges of a function lead to blocks that exist, and no block goes to another one twice.
structure Linked (f : Function) : Prop where
  created : ∀ {p b}, b ∈ f.successors p → b.index < f.blocks.size
  nodup : ∀ p, (f.successors p).Nodup

theorem Reaches.created (hw : f.WellFormed) (hl : f.Linked) (h : f.Reaches b) :
    b.index < f.blocks.size := by
  cases h
  case entry h => exact hw.entry_created h
  case step h => exact hl.created h

section AddBlock

variable {name : String}

theorem addBlock_entry (he : f.entry.isSome) : (f.addBlock name).2.entry = f.entry := by
  have ⟨_, he⟩ := Option.isSome_iff_exists.mp he
  simp [addBlock, he]

theorem addBlock_reaches_iff (he : f.entry.isSome) :
    (f.addBlock name).2.Reaches b ↔ f.Reaches b :=
  reaches_congr (addBlock_entry he) fun _ => addBlock_successors

theorem Linked.addBlock (h : f.Linked) : (f.addBlock name).2.Linked where
  created hb := by simpa using Nat.lt_succ_of_lt <| h.created (addBlock_successors (f := f) ▸ hb)
  nodup p := by simpa using h.nodup p

end AddBlock

section AddParam

variable {name : String} {type : Scalar}

theorem WellFormed.addParam_successors (h : f.WellFormed) :
    (f.addParam name type).2.successors b = f.successors b :=
  successors_congr h.addParam_terminator?

theorem WellFormed.addParam_reaches_iff (h : f.WellFormed) :
    (f.addParam name type).2.Reaches b ↔ f.Reaches b :=
  reaches_congr rfl fun _ => h.addParam_successors

theorem Linked.addParam (hl : f.Linked) (h : f.WellFormed) : (f.addParam name type).2.Linked where
  created hb := hl.created (by simpa only [h.addParam_successors] using hb)
  nodup p := by simpa only [h.addParam_successors] using hl.nodup p

end AddParam

section Emit

variable {name : String} {type : Option Scalar}

theorem emit_successors_self (ho : f.Open p) (ht : op.isTerminator = true) :
    (f.emit p name type op).successors p = op.successors :=
  successors_of_terminator? <| by simp [emit_terminator?_self ho.created, ht]

theorem WellFormed.emit_successors_of_ne (h : f.WellFormed) (hb : b ≠ p) :
    (f.emit p name type op).successors b = f.successors b :=
  successors_congr <| h.emit_terminator?_of_ne hb

theorem WellFormed.emit_successors_of_not_isTerminator
    (h : f.WellFormed) (ho : f.Open p) (ht : op.isTerminator = false) :
    (f.emit p name type op).successors b = f.successors b :=
  successors_congr <| h.emit_terminator?_of_not_isTerminator ho ht

theorem WellFormed.emit_reaches_iff_of_not_isTerminator
    (h : f.WellFormed) (ho : f.Open p) (ht : op.isTerminator = false) :
    (f.emit p name type op).Reaches b ↔ f.Reaches b :=
  reaches_congr rfl fun _ => h.emit_successors_of_not_isTerminator ho ht

-- The edges after a block was closed.
theorem WellFormed.mem_emit_successors_iff
    (h : f.WellFormed) (ho : f.Open p) (ht : op.isTerminator = true) (q : BlockId) :
    b ∈ (f.emit p name type op).successors q ↔ b ∈ f.successors q ∨ q = p ∧ b ∈ op.successors := by
  by_cases hq : q = p
  case pos => subst hq; simp [emit_successors_self ho ht, ho.not_mem_successors]
  case neg => simp [h.emit_successors_of_ne hq, hq]

-- A terminator leads on only to blocks that end the paths or that paths lead to already. So it
-- makes no more blocks reachable than those it names.
theorem WellFormed.emit_reaches_iff (h : f.WellFormed) (ho : f.Open p) (ht : op.isTerminator = true)
    (hs : f.Reaches p → ∀ b ∈ op.successors, f.Reaches b ∨ f.Open b ∧ b ≠ p) :
    (f.emit p name type op).Reaches b ↔ f.Reaches b ∨ f.Reaches p ∧ b ∈ op.successors := by
  constructor
  case mp =>
    intro hb
    induction hb
    case entry he => exact .inl (.entry he)
    case step q b _ hb hi =>
      rcases (h.mem_emit_successors_iff ho ht q).mp hb with hb | ⟨hq, hb⟩
      · rcases hi with hq | ⟨hp, hq⟩
        · exact .inl (.step hq hb)
        · rcases hs hp q hq with hq | ⟨hq, _⟩
          · exact .inl (.step hq hb)
          · exact absurd hb hq.not_mem_successors
      · rcases hi with hp | ⟨hp, _⟩
        · exact .inr ⟨hq ▸ hp, hb⟩
        · exact .inr ⟨hp, hb⟩
  case mpr =>
    have hm {b} (hb : f.Reaches b) : (f.emit p name type op).Reaches b :=
      hb.mono emit_entry.symm fun _ hb => (h.mem_emit_successors_iff ho ht _).mpr (.inl hb)
    rintro (hb | ⟨hp, hb⟩)
    · exact hm hb
    · exact .step (hm hp) <| (h.mem_emit_successors_iff ho ht _).mpr (.inr ⟨rfl, hb⟩)

theorem Linked.emit_of_not_isTerminator
    (hl : f.Linked) (h : f.WellFormed) (ho : f.Open p) (ht : op.isTerminator = false) :
    (f.emit p name type op).Linked where
  created hb := by
    rw [h.emit_successors_of_not_isTerminator ho ht] at hb
    simpa using hl.created hb
  nodup q := by simpa [h.emit_successors_of_not_isTerminator ho ht] using hl.nodup q

theorem Linked.emit (hl : f.Linked) (h : f.WellFormed) (ho : f.Open p) (ht : op.isTerminator = true)
    (hc : ∀ b ∈ op.successors, b.index < f.blocks.size) (hn : op.successors.Nodup) :
    (f.emit p name type op).Linked where
  created := by
    intro q b hb
    rw [emit_size]
    rcases (h.mem_emit_successors_iff ho ht q).mp hb with hb | ⟨_, hb⟩
    · exact hl.created hb
    · exact hc b hb
  nodup q := by
    by_cases hq : q = p
    case pos => subst hq; simpa [emit_successors_self ho ht] using hn
    case neg => simpa [h.emit_successors_of_ne hq] using hl.nodup q

end Emit

section Redirect

variable {old new : BlockId}
variable (h : f.WellFormed) (hl : f.Linked)
variable (ho : f.terminator? p = some op₁) (hr : op₁.retarget? old new = some op)
include h hl ho hr

theorem mem_redirect_successors_iff (q : BlockId) :
    b ∈ (f.redirect p op).successors q ↔
      q ≠ p ∧ b ∈ f.successors q ∨ q = p ∧ (b = new ∨ b ∈ f.successors q ∧ b ≠ old) := by
  have ht := Op.isTerminator_of_retarget? hr
  by_cases hq : q = p
  case pos =>
    subst hq
    have hs := successors_of_terminator? ho
    simp [successors_of_terminator? <| redirect_terminator?_self ho ht, hs,
      Op.mem_successors_of_retarget? hr (hs ▸ hl.nodup q)]
  case neg => simp [successors_congr <| h.redirect_terminator?_of_ne (o := op) ho hq, hq]

-- An edge moves from one block to another, both without edges of their own. The old one stays
-- reachable through an edge from elsewhere.
theorem redirect_reaches_iff (hold : f.Open old) (hnew : f.Open new)
    (hq : f.Reaches p → ∃ q, q ≠ p ∧ f.Reaches q ∧ old ∈ f.successors q) :
    (f.redirect p op).Reaches b ↔ f.Reaches b ∨ f.Reaches p ∧ b = new := by
  constructor
  case mp =>
    intro hb
    induction hb
    case entry he => exact .inl (.entry (by simpa using he))
    case step q b _ hb hi =>
      rcases (mem_redirect_successors_iff h hl ho hr q).mp hb with ⟨_, hb⟩ | ⟨hqp, hb⟩
      · rcases hi with hq | ⟨_, hq⟩
        · exact .inl (.step hq hb)
        · exact absurd hb (hq ▸ hnew).not_mem_successors
      · rcases hi with hp | ⟨_, hq⟩
        · rcases hb with hb | ⟨hb, _⟩
          · exact .inr ⟨hqp ▸ hp, hb⟩
          · exact .inl (.step hp hb)
        · simp [← hqp, hq, hnew.unclosed] at ho
  case mpr =>
    -- Paths to any other block do not pass the old one, since no edge leaves it.
    have hm {b} (hb : f.Reaches b) : b ≠ old → (f.redirect p op).Reaches b := by
      induction hb
      case entry he => exact fun _ => .entry (by simpa using he)
      case step q b _ hb hi =>
        intro hne
        have hqo : q ≠ old := by rintro rfl; exact hold.not_mem_successors hb
        refine .step (hi hqo) <| (mem_redirect_successors_iff h hl ho hr q).mpr ?_
        by_cases hqp : q = p
        case pos => exact .inr ⟨hqp, .inr ⟨hb, hne⟩⟩
        case neg => exact .inl ⟨hqp, hb⟩
    have hpo : p ≠ old := by rintro rfl; simp [hold.unclosed] at ho
    rintro (hb | ⟨hp, rfl⟩)
    · by_cases hbo : b = old
      case neg => exact hm hb hbo
      case pos =>
        subst hbo
        -- The last edge of the path to the old block is the one that moved or another one.
        have hlast : ∃ q, q ≠ p ∧ f.Reaches q ∧ b ∈ f.successors q ∨ f.entry = some b := by
          cases hb
          case entry he => exact ⟨p, .inr he⟩
          case step q hqr hb =>
            by_cases hqp : q = p
            case pos => have ⟨q, hq⟩ := hq (hqp ▸ hqr); exact ⟨q, .inl hq⟩
            case neg => exact ⟨q, .inl ⟨hqp, hqr, hb⟩⟩
        rcases hlast with ⟨q, ⟨hqp, hqr, hb⟩ | he⟩
        · have hqo : q ≠ b := by rintro rfl; exact hold.not_mem_successors hb
          exact .step (hm hqr hqo) <| (mem_redirect_successors_iff h hl ho hr q).mpr (.inl ⟨hqp, hb⟩)
        · exact .entry (by simpa using he)
    · exact .step (hm hp hpo) <| (mem_redirect_successors_iff h hl ho hr p).mpr (.inr ⟨rfl, .inl rfl⟩)

theorem Linked.redirect (hc : new.index < f.blocks.size) (hn : new ∉ f.successors p) :
    (f.redirect p op).Linked where
  created := by
    intro q b hb
    rw [redirect_blocks]
    rcases (mem_redirect_successors_iff h hl ho hr q).mp hb with ⟨_, hb⟩ | ⟨_, rfl | ⟨hb, _⟩⟩
    · exact hl.created hb
    · exact hc
    · exact hl.created hb
  nodup q := by
    by_cases hq : q = p
    case pos =>
      subst hq
      have hs := successors_of_terminator? ho
      rw [successors_of_terminator? <| redirect_terminator?_self ho (Op.isTerminator_of_retarget? hr)]
      exact Op.nodup_successors_of_retarget? hr (hs ▸ hl.nodup q) (hs ▸ hn)
    case neg =>
      rw [successors_congr <| h.redirect_terminator?_of_ne (o := op) ho hq]
      exact hl.nodup q

end Redirect

section Search

theorem reachable.go_sound {unseen pending : List BlockId} {P : BlockId → Prop}
    (hs : ∀ p b, P p → b ∈ f.successors p → P b) (hp : ∀ b ∈ pending, P b)
    (hb : b ∈ reachable.go f unseen pending) : P b := by
  fun_induction reachable.go f unseen pending
  case case1 => simp at hb
  case case2 q pending _ hi =>
    rcases List.mem_cons.mp hb with rfl | hb
    · exact hp b (by simp)
    · refine hi (fun c hc => ?_) hb
      rcases List.mem_append.mp hc with hc | hc
      · exact hs q c (hp q (by simp)) hc
      · exact hp c (by simp [hc])
  case case3 hi => exact hi (fun c hc => hp c (by simp [hc])) hb

-- The search visits what is pending and not seen, and from there all that is not seen.
theorem reachable.go_complete (unseen pending : List BlockId) :
    (∀ b ∈ pending, b ∈ unseen → b ∈ reachable.go f unseen pending) ∧
    (∀ p ∈ reachable.go f unseen pending, ∀ b ∈ f.successors p, b ∈ unseen →
      b ∈ reachable.go f unseen pending) := by
  fun_induction reachable.go f unseen pending
  case case1 => simp
  case case2 unseen q pending hq hi =>
    have ⟨hi₁, hi₂⟩ := hi
    have hu {b} (hb : b ∈ unseen) (hne : b ≠ q) : b ∈ unseen.erase q :=
      (List.mem_erase_of_ne hne).mpr hb
    constructor
    · intro b hb hs
      by_cases hne : b = q
      case pos => simp [hne]
      case neg =>
        have hb : b ∈ pending := by simpa [hne] using hb
        exact .tail _ <| hi₁ b (by simp [hb]) (hu hs hne)
    · intro p hp b hb hs
      by_cases hne : b = q
      case pos => simp [hne]
      case neg =>
        rcases List.mem_cons.mp hp with rfl | hp
        · exact .tail _ <| hi₁ b (by simp [hb]) (hu hs hne)
        · exact .tail _ <| hi₂ p hp b hb (hu hs hne)
  case case3 unseen q pending hq hi =>
    refine ⟨fun b hb hs => ?_, hi.2⟩
    rcases List.mem_cons.mp hb with rfl | hb
    · exact absurd hs hq
    · exact hi.1 b hb hs

theorem reaches_of_mem_reachable (hb : b ∈ f.reachable) : f.Reaches b := by
  refine reachable.go_sound (fun _ _ => .step) (fun b hb => .entry ?_) hb
  simpa using hb

theorem mem_reachable_of_entry (he : f.entry = some b) (hc : b.index < f.blocks.size) :
    b ∈ f.reachable :=
  (reachable.go_complete f.created f.entry.toList).1 b (by simpa using he) (mem_created_iff.mpr hc)

theorem mem_reachable_of_edge (hp : p ∈ f.reachable) (hb : b ∈ f.successors p)
    (hc : b.index < f.blocks.size) : b ∈ f.reachable :=
  (reachable.go_complete f.created f.entry.toList).2 p hp b hb (mem_created_iff.mpr hc)

-- The search finds exactly the blocks to which paths lead.
theorem mem_reachable_iff (hw : f.WellFormed) (hl : f.Linked) : b ∈ f.reachable ↔ f.Reaches b := by
  refine ⟨reaches_of_mem_reachable, fun h => ?_⟩
  induction h
  case entry he => exact mem_reachable_of_entry he (hw.entry_created he)
  case step hr hb hi => exact mem_reachable_of_edge hi hb (hl.created hb)

end Search

end Function

end StackCompiler.Ssa
