import StackCompiler.Proofs.Ssa.Finish
import StackCompiler.Proofs.Ssa.Soundness
import Mathlib.Data.List.Nodup

-- The search for reachable blocks, with a list of blocks that wait for a visit. Blocks can wait more
-- than once, and the list can grow. Whichever block comes next, the search has an end, and then it has
-- seen the blocks to which a path leads.

namespace StackCompiler.Ssa

variable {f : Function} {b : BlockId}

namespace Function

-- Every edge leads to a block that exists.
def Directed (f : Function) : Prop :=
  ∀ p, ∀ b ∈ f.successors p, f.hasBlock b

theorem hasBlock_iff : f.hasBlock b = true ↔ b ∈ f.created := by
  rw [hasBlock, decide_eq_true_eq, mem_created_iff]

end Function

-- How far a search has come.
structure Search where
  seen : List BlockId
  pending : List BlockId
deriving DecidableEq, Repr

namespace Search

def start (f : Function) : Search :=
  ⟨[], f.entry.toList⟩

-- Some pending block is taken off the list. The first visit puts there what the block leads to.
inductive Round (f : Function) : Search → Search → Prop
  | skip {seen pending rest : List BlockId} {b : BlockId} (hp : pending.Perm (b :: rest))
    (hb : b ∈ seen) : Round f ⟨seen, pending⟩ ⟨seen, rest⟩
  | visit {seen pending rest : List BlockId} {b : BlockId} (hp : pending.Perm (b :: rest))
    (hb : b ∉ seen) : Round f ⟨seen, pending⟩ ⟨b :: seen, f.successors b ++ rest⟩

inductive Rounds (f : Function) : Nat → Search → Search → Prop
  | refl (s : Search) : Rounds f 0 s s
  | step {n : Nat} {s t u : Search} (h : Round f s t) (hs : Rounds f n t u) : Rounds f (n + 1) s u

variable {s t : Search} {n : Nat}

theorem Round.exists_of_pending (h : s.pending ≠ []) : ∃ t, Round f s t := by
  obtain ⟨seen, pending⟩ := s
  obtain ⟨b, rest, rfl⟩ := List.exists_cons_of_ne_nil h
  by_cases hb : b ∈ seen
  case pos => exact ⟨_, .skip (.refl _) hb⟩
  case neg => exact ⟨_, .visit (.refl _) hb⟩

section Bound

-- The rounds that can still follow: one for each pending block, and two for what each block that was
-- not seen can put on the list.
def left (f : Function) (s : Search) : Nat :=
  s.pending.length + 2 * (f.created.filter (· ∉ s.seen)).length

theorem filter_not_mem_cons {seen : List BlockId} :
    f.created.filter (· ∉ b :: seen) = (f.created.filter (· ∉ seen)).erase b := by
  rw [(Function.nodup_created.filter _).erase_eq_filter, List.filter_filter]
  refine List.filter_congr fun a _ => ?_
  simp [List.mem_cons, not_or, bne, Bool.beq_eq_decide_eq]

theorem left_visit {seen rest : List BlockId} (hb : b ∉ seen) :
    left f ⟨b :: seen, f.successors b ++ rest⟩ < left f ⟨seen, b :: rest⟩ := by
  simp only [left, filter_not_mem_cons, List.length_append, List.length_cons]
  by_cases hc : b.index < f.blocks.size
  case pos =>
    have hm : b ∈ f.created.filter (· ∉ seen) := by simp [Function.mem_created_iff, hc, hb]
    have := List.length_erase_of_mem hm
    have := List.length_pos_of_mem hm
    have := f.length_successors_le b
    omega
  case neg =>
    -- Nothing leads on from a block that does not exist.
    have hn : f.successors b = [] := by
      refine List.eq_nil_iff_forall_not_mem.mpr fun a ha => hc ?_
      exact Function.created_of_mem_successors ha
    have := (f.created.filter (· ∉ seen)).length_erase_le (a := b)
    simp only [hn, List.length_nil]
    omega

theorem Round.left_lt (h : Round f s t) : left f t < left f s := by
  cases h
  case skip seen pending rest b hp hb => simp [left, hp.length_eq]
  case visit seen pending rest b hp hb =>
    have hlt : left f ⟨b :: seen, f.successors b ++ rest⟩ < left f ⟨seen, b :: rest⟩ := left_visit hb
    simpa only [left, hp.length_eq] using hlt

theorem Rounds.add_left_le (h : Rounds f n s t) : n + left f t ≤ left f s := by
  induction h
  case refl => simp
  case step h _ hi =>
    have := h.left_lt
    omega

theorem left_start_le (f : Function) : left f (start f) ≤ 2 * f.blocks.size + 1 := by
  have : f.entry.toList.length ≤ 1 := by cases f.entry <;> simp
  have : f.created.length = f.blocks.size := by simp [Function.created]
  have : left f (start f) ≤ f.entry.toList.length + 2 * f.created.length :=
    Nat.add_le_add_left (Nat.mul_le_mul_left 2 (List.length_filter_le ..)) _
  omega

end Bound

-- A search that has missed nothing: what is seen and what is pending can be reached, and all that the
-- seen blocks lead to is seen or pending.
structure Tracks (f : Function) (s : Search) : Prop where
  nodup : s.seen.Nodup
  reaches : ∀ b, b ∈ s.seen ∨ b ∈ s.pending → f.Reaches b
  entry : ∀ {e}, f.entry = some e → e ∈ s.seen ∨ e ∈ s.pending
  closed : ∀ p ∈ s.seen, ∀ b ∈ f.successors p, b ∈ s.seen ∨ b ∈ s.pending

theorem tracks_start (f : Function) : Tracks f (start f) where
  nodup := List.nodup_nil
  reaches b hb := .entry (by simpa [start] using hb)
  entry he := by simp [start, he]
  closed := by simp [start]

theorem Tracks.round (h : Tracks f s) (hr : Round f s t) : Tracks f t := by
  cases hr
  case skip seen pending rest b hp hb =>
    have hkeep {a} (ha : a ∈ seen ∨ a ∈ pending) : a ∈ seen ∨ a ∈ rest := by
      rw [hp.mem_iff, List.mem_cons] at ha
      rcases ha with ha | rfl | ha
      · exact .inl ha
      · exact .inl hb
      · exact .inr ha
    refine ⟨h.nodup, fun a ha => h.reaches a (ha.imp_right fun ha => ?_), fun he => hkeep (h.entry he),
      fun p hm a ha => hkeep (h.closed p hm a ha)⟩
    exact hp.mem_iff.mpr (.tail _ ha)
  case visit seen pending rest b hp hb =>
    have hkeep {a} (ha : a ∈ seen ∨ a ∈ pending) : a ∈ b :: seen ∨ a ∈ f.successors b ++ rest := by
      rw [hp.mem_iff, List.mem_cons] at ha
      rcases ha with ha | rfl | ha
      · exact .inl (.tail _ ha)
      · exact .inl List.mem_cons_self
      · exact .inr (List.mem_append_right _ ha)
    have hreach : f.Reaches b := h.reaches b (.inr (hp.mem_iff.mpr List.mem_cons_self))
    refine ⟨List.nodup_cons.mpr ⟨hb, h.nodup⟩, fun a ha => ?reaches, fun he => hkeep (h.entry he),
      fun p hm a ha => ?closed⟩
    case reaches =>
      rcases ha with ha | ha
      · rcases List.mem_cons.mp ha with rfl | ha
        · exact hreach
        · exact h.reaches a (.inl ha)
      · rcases List.mem_append.mp ha with ha | ha
        · exact .step hreach ha
        · exact h.reaches a (.inr (hp.mem_iff.mpr (.tail _ ha)))
    case closed =>
      rcases List.mem_cons.mp hm with rfl | hm
      · exact .inr (List.mem_append_left _ ha)
      · exact hkeep (h.closed p hm a ha)

theorem Tracks.rounds (h : Tracks f s) (hr : Rounds f n s t) : Tracks f t := by
  induction hr
  case refl => exact h
  case step hr _ hi => exact hi (h.round hr)

-- When nothing is pending any more, all that can be reached is seen.
theorem Tracks.mem_seen_iff (h : Tracks f s) (hp : s.pending = []) : b ∈ s.seen ↔ f.Reaches b := by
  have hseen {a} (ha : a ∈ s.seen ∨ a ∈ s.pending) : a ∈ s.seen :=
    ha.resolve_right (by simp [hp])
  refine ⟨fun hb => h.reaches b (.inl hb), fun hr => ?_⟩
  induction hr
  case entry he => exact hseen (h.entry he)
  case step p b _ hb hi => exact hseen (h.closed p hi b hb)

end Search

namespace Function

open Search (Round Rounds)

-- The blocks that were not seen are those that exist and are left over.
theorem exists_rounds_go (hd : f.Directed) {seen unseen pending : List BlockId} (hn : unseen.Nodup)
    (hu : ∀ b, b ∈ unseen ↔ b ∈ f.created ∧ b ∉ seen) (hp : ∀ b ∈ pending, b ∈ f.created) :
    ∃ n, Rounds f n ⟨seen, pending⟩ ⟨(reachable.go f unseen pending).reverse ++ seen, []⟩ := by
  fun_induction reachable.go f unseen pending generalizing seen
  case case1 => exact ⟨0, .refl _⟩
  case case2 unseen b pending hb hi =>
    obtain ⟨hc, hs⟩ := (hu b).mp hb
    have hu' (a) : a ∈ unseen.erase b ↔ a ∈ f.created ∧ a ∉ b :: seen := by
      rw [hn.mem_erase_iff, hu, List.mem_cons, not_or]
      tauto
    have hp' (a) (ha : a ∈ f.successors b ++ pending) : a ∈ f.created := by
      rcases List.mem_append.mp ha with ha | ha
      · exact hasBlock_iff.mp (hd b a ha)
      · exact hp a (.tail _ ha)
    obtain ⟨n, hr⟩ := hi (hn.erase b) hu' hp'
    refine ⟨n + 1, .step (.visit (.refl _) hs) ?_⟩
    simpa using hr
  case case3 unseen b pending hb hi =>
    have hs : b ∈ seen := by
      by_contra hs
      exact hb ((hu b).mpr ⟨hp b List.mem_cons_self, hs⟩)
    obtain ⟨n, hr⟩ := hi hn hu fun a ha => hp a (.tail _ ha)
    exact ⟨n + 1, .step (.skip (.refl _) hs) hr⟩

theorem exists_rounds_reachable (hd : f.Directed) (he : ∀ e, f.entry = some e → f.hasBlock e) :
    ∃ n, Rounds f n (.start f) ⟨f.reachable.reverse, []⟩ := by
  have hp (b) (hb : b ∈ f.entry.toList) : b ∈ f.created :=
    hasBlock_iff.mp (he b (by simpa using hb))
  have hu (b) : b ∈ f.created ↔ b ∈ f.created ∧ b ∉ ([] : List BlockId) := by simp
  obtain ⟨n, hr⟩ := exists_rounds_go hd nodup_created hu hp
  rw [List.append_nil] at hr
  exact ⟨n, hr⟩

-- The search may take the pending blocks in any order. It ends after no more than two rounds for each
-- block and one for the entry, with each block that a path leads to, whether or not the layout has it,
-- and with no other.
theorem search_ends_with_reachable (he : ∀ e, f.entry = some e → f.hasBlock e) (hd : f.Directed) :
    f.reachable.Nodup ∧ (∀ b, b ∈ f.reachable ↔ ∃ blocks, f.Path b blocks) ∧
    (f.entry = none → f.reachable = []) ∧
    (∀ layout, { f with layout := layout }.reachable = f.reachable) ∧
    (∃ n, Rounds f n (.start f) ⟨f.reachable.reverse, []⟩) ∧
    ∀ n s, Rounds f n (.start f) s → n ≤ 2 * f.blocks.size + 1 ∧
      (s.pending ≠ [] → ∃ t, Round f s t) ∧ (s.pending = [] → s.seen.Perm f.reachable) := by
  obtain ⟨rounds, hrounds⟩ := exists_rounds_reachable hd he
  have htracks := (Search.tracks_start f).rounds hrounds
  have hnodup : f.reachable.Nodup := List.nodup_reverse.mp htracks.nodup
  have hreaches (b) : b ∈ f.reachable ↔ f.Reaches b :=
    List.mem_reverse.symm.trans (htracks.mem_seen_iff rfl)
  refine ⟨hnodup, fun b => (hreaches b).trans ?path, fun hn => ?none, fun layout => ?layout,
    ⟨rounds, hrounds⟩, fun n s hs => ⟨?bound, Round.exists_of_pending, fun hp => ?done⟩⟩
  case path =>
    refine ⟨Reaches.exists_path, fun h => ?_⟩
    obtain ⟨_, hpath⟩ := h
    exact hpath.reaches.1
  case none => simp [reachable, hn, reachable.go]
  case layout =>
    have hs (b) : { f with layout := layout }.successors b = f.successors b := rfl
    exact reachable.go_congr hs ..
  case bound =>
    have := hs.add_left_le
    have := Search.left_start_le f
    omega
  case done =>
    have hs := (Search.tracks_start f).rounds hs
    exact (List.perm_ext_iff_of_nodup hs.nodup hnodup).mpr fun b =>
      (hs.mem_seen_iff hp).trans (hreaches b).symm

-- A block that leads back to itself, behind a branch that goes there either way. The layout has lost
-- it, and the block that leads back to the entry too.
def knot : Function where
  name := "knot"
  result := none
  params := []
  values := #[⟨"", none, .jump ⟨1⟩, some ⟨1⟩⟩, ⟨"", none, .jump ⟨0⟩, some ⟨2⟩⟩,
    ⟨"zero", some .i32, .const (.int 0), some ⟨0⟩⟩,
    ⟨"", none, .branch ⟨2⟩ .eq ⟨2⟩ ⟨1⟩ ⟨1⟩, some ⟨0⟩⟩]
  blocks := #[⟨"entry", [⟨2⟩, ⟨3⟩]⟩, ⟨"loop", [⟨0⟩]⟩, ⟨"back", [⟨1⟩]⟩]
  layout := [⟨0⟩]
  entry := some ⟨0⟩

theorem index_of_mem_successors_knot {p : BlockId} (h : b ∈ knot.successors p) :
    b.index = 0 ∨ b.index = 1 := by
  have hp : p.index < 3 := created_of_mem_successors h
  obtain ⟨n⟩ := p
  have hs : ∀ n < 3, ∀ b ∈ knot.successors ⟨n⟩, b.index = 0 ∨ b.index = 1 := by decide
  exact hs n hp b h

theorem search_ends_with_reachable_knot :
    (∀ e, knot.entry = some e → knot.hasBlock e) ∧ knot.Directed ∧
    ⟨1⟩ ∉ knot.layout ∧ ⟨1⟩ ∈ knot.reachable ∧ ⟨2⟩ ∉ knot.reachable ∧
    ∃ n ≤ 7, Rounds knot n (.start knot) ⟨knot.reachable.reverse, []⟩ := by
  have he (e) (he : knot.entry = some e) : knot.hasBlock e := by
    cases he
    rfl
  have hd : knot.Directed := by
    intro p b hb
    have := index_of_mem_successors_knot hb
    exact decide_eq_true (show b.index < 3 by omega)
  obtain ⟨-, hpath, -, -, ⟨n, hn⟩, hbound⟩ := search_ends_with_reachable he hd
  refine ⟨he, hd, by decide, (hpath _).mpr ⟨_, .step (.entry rfl) (by decide)⟩, fun hm => ?_, n,
    (hbound n _ hn).1, hn⟩
  obtain ⟨blocks, h⟩ := (hpath _).mp hm
  cases h
  case entry h => cases h
  case step hb => exact absurd (index_of_mem_successors_knot hb) (by decide)

end Function

end StackCompiler.Ssa
