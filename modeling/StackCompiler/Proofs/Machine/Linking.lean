import Mathlib.Data.List.Sort
import Mathlib.Data.String.Basic
import StackCompiler.Proofs.Machine.Layout

-- Whether code comes out the same however it is cut into streams. Each stream knows its labels
-- beforehand, but not those of the streams behind it.

namespace StackCompiler

-- Two computations that fail alike, or whose results are related.
def Agree (R : α → β → Prop) : Except ε α → Except ε β → Prop
  | .ok a, .ok b => R a b
  | .error e, .error e' => e = e'
  | _, _ => False

theorem Agree.bind {R : α → β → Prop} {S : γ → δ → Prop} {x : Except ε α} {y : Except ε β}
    {f : α → Except ε γ} {g : β → Except ε δ} (h : Agree R x y)
    (hf : ∀ a b, R a b → Agree S (f a) (g b)) : Agree S (x.bind f) (y.bind g) := by
  cases x <;> cases y
  case ok.ok a b => exact hf a b h
  case error.error => exact h
  all_goals exact h.elim

-- The results may be remembered.
theorem Agree.eq_ok {R : α → β → Prop} {x : Except ε α} {y : Except ε β} (h : Agree R x y) :
    Agree (fun a b => R a b ∧ x = .ok a ∧ y = .ok b) x y := by
  cases x <;> cases y
  case ok.ok => exact ⟨h, rfl, rfl⟩
  all_goals exact h

theorem agree_eq_iff {x y : Except ε α} : Agree Eq x y ↔ x = y := by
  cases x <;> cases y <;> simp [Agree]

namespace Machine.Image

variable {i k : Image} {name : String} {instruction : Instruction} {code : List Instruction}
variable {extra : List String}

-- Two images of the same code, of which the second one knows more labels.
structure Ahead (extra : List String) (i k : Image) : Prop where
  base : k.base = i.base
  symbols : k.symbols = i.symbols
  placed : k.placed = i.placed
  pending : k.pending = i.pending
  chunks : k.chunks = i.chunks
  labels : ∀ name, name ∈ k.labels ↔ name ∈ i.labels ∨ name ∈ extra

namespace Ahead

theorem mention (h : Ahead extra i k) : Ahead extra (i.mention name) (k.mention name) where
  base := by simpa using h.base
  symbols := by simpa using h.symbols
  placed := by simpa using h.placed
  pending := by simpa using h.pending
  chunks := by simpa using h.chunks
  labels other := by
    rw [mem_mention_labels, mem_mention_labels, h.labels, or_right_comm]

theorem add {piece : Piece} (h : Ahead extra i k) : Ahead extra (i.add piece) (k.add piece) where
  base := h.base
  symbols := h.symbols
  placed := h.placed
  pending := rfl
  chunks := by simp only [Image.add, h.chunks, h.pending]
  labels := h.labels

theorem label (h : Ahead extra i k) : Ahead extra (i.label name) (k.label name) where
  base := h.mention.base
  symbols := h.mention.symbols
  placed := congrArg (name :: ·) h.placed
  pending := rfl
  chunks := h.mention.chunks
  labels := h.mention.labels

-- A call is taken alike, unless the label that only the second image knows is a symbol, too.
theorem call {target : String} (h : Ahead extra i k)
    (hc : target ∈ extra → target ∉ i.labels → i.symbols.lookup target = none) :
    Ahead extra (i.call target) (k.call target) := by
  have labelled : Ahead extra ((i.mention target).add (.callLabel target))
      ((k.mention target).add (.callLabel target)) := h.mention.add
  by_cases hi : target ∈ i.labels
  case pos =>
    have hk : target ∈ k.labels := (h.labels target).mpr (.inl hi)
    rw [call_eq_label (.inl hi), call_eq_label (.inl hk)]
    exact labelled
  case neg =>
    cases hs : i.symbols.lookup target
    case none =>
      rw [call_eq_label (.inr hs), call_eq_label (.inr (h.symbols ▸ hs))]
      exact labelled
    case some address =>
      have hk : target ∉ k.labels := by
        rw [h.labels]
        intro hk
        rw [hc (hk.resolve_left hi) hi] at hs
        cases hs
      rw [call_eq_address hi hs, call_eq_address hk (h.symbols ▸ hs)]
      exact h.add

theorem step (h : Ahead extra i k)
    (hc : ∀ target, instruction = .call target → target ∈ extra → target ∉ i.labels →
      i.symbols.lookup target = none) :
    Agree (Ahead extra) (i.step instruction) (k.step instruction) := by
  by_cases plain : instruction.isPlain = true
  case pos =>
    rw [step_of_isPlain plain, step_of_isPlain plain]
    cases instruction.encoding
    case error => rfl
    case ok => exact h.add
  case neg =>
    cases instruction
    case label name =>
      simp only [Image.step, h.placed, h.pending]
      split
      case isTrue => rfl
      case isFalse =>
        split
        case isTrue => rfl
        case isFalse => exact h.label
    case call target => exact h.call (hc target rfl)
    all_goals exact absurd rfl plain

end Ahead

theorem symbols_step (h : i.step instruction = .ok k) : k.symbols = i.symbols := by
  rcases step_cases h with ⟨name, -, -, -, rfl⟩ | ⟨target, -, rfl⟩ | ⟨bytes, -, -, rfl⟩
  case inl => exact mention_symbols
  case inr.inl =>
    unfold Image.call
    split
    case h_1 => rfl
    case h_2 => exact mention_symbols
  case inr.inr => rfl

theorem symbols_steps (h : i.steps code = .ok k) : k.symbols = i.symbols := by
  induction code generalizing i
  case nil =>
    cases h
    rfl
  case cons instruction code ih =>
    obtain ⟨j, hx, h⟩ := steps_cons_eq_ok_iff.mp h
    rw [ih h, symbols_step hx]

theorem labels_subset_step (h : i.step instruction = .ok k) : i.labels ⊆ k.labels := by
  have mentioned (name : String) : i.labels ⊆ (i.mention name).labels :=
    fun _ ho => mem_mention_labels.mpr (.inl ho)
  rcases step_cases h with ⟨name, -, -, -, rfl⟩ | ⟨target, -, rfl⟩ | ⟨bytes, -, -, rfl⟩
  case inl => exact mentioned name
  case inr.inl =>
    unfold Image.call
    split
    case h_1 => exact List.Subset.refl _
    case h_2 => exact mentioned target
  case inr.inr => exact List.Subset.refl _

theorem Ahead.steps (h : Ahead extra i k)
    (hc : ∀ target, .call target ∈ code → target ∈ extra → target ∉ i.labels →
      i.symbols.lookup target = none) :
    Agree (Ahead extra) (i.steps code) (k.steps code) := by
  induction code generalizing i k
  case nil => exact h
  case cons instruction code ih =>
    have first := h.step fun target he => hc target (he ▸ List.mem_cons_self)
    simp only [Image.steps]
    cases hi : i.step instruction <;> cases hk : k.step instruction <;> rw [hi, hk] at first
    case error.error => exact first
    case ok.ok i' k' =>
      refine ih first fun target ht he hn => ?_
      rw [symbols_step hi]
      exact hc target (List.mem_cons_of_mem _ ht) he fun hl => hn (labels_subset_step hi hl)
    all_goals exact first.elim

theorem ahead_mentionAll : Ahead extra i (i.mentionAll extra) := by
  have labels (name : String) : name ∈ (i.mentionAll extra).labels ↔ name ∈ i.labels ∨ name ∈ extra :=
    mem_mentionAll_labels
  rw [mentionAll_eq]
  exact ⟨rfl, rfl, rfl, rfl, rfl, labels⟩

-- The labels that one image knows already are mentioned in the other.
theorem Ahead.mentionAll (h : Ahead extra i k) : Ahead [] (i.mentionAll extra) k := by
  have labels (name : String) : name ∈ k.labels ↔ name ∈ (i.mentionAll extra).labels ∨ name ∈ [] := by
    rw [h.labels, mem_mentionAll_labels]
    simp
  rw [mentionAll_eq]
  exact ⟨h.base, h.symbols, h.placed, h.pending, h.chunks, labels⟩

theorem pairwise_sorted (names : List String) :
    (names.mergeSort fun a b => decide (a ≤ b)).Pairwise (· ≤ ·) := by
  refine (List.pairwise_mergeSort (fun a b c hab hbc => ?_) (fun a b => ?_) names).imp of_decide_eq_true
  case refine_1 => exact decide_eq_true ((of_decide_eq_true hab).trans (of_decide_eq_true hbc))
  case refine_2 => simpa using le_total a b

theorem sorted_eq_of_perm {names others : List String} (h : names.Perm others) :
    (names.mergeSort fun a b => decide (a ≤ b)) = others.mergeSort fun a b => decide (a ≤ b) :=
  ((List.mergeSort_perm names _).trans (h.trans (List.mergeSort_perm others _).symm)).eq_of_pairwise'
    (pairwise_sorted names) (pairwise_sorted others)

-- No call goes to one of the first `n` numbers, so that none is taken for a label.
def Beyond (n : Nat) (i : Image) : Prop :=
  ∀ c ∈ i.chunks, ∀ value, c.piece = .callAddress value → n < value.toNat

namespace Beyond

variable {n : Nat}

theorem add {piece : Piece} (h : i.Beyond n) (hp : ∀ value, piece = .callAddress value → n < value.toNat) :
    (i.add piece).Beyond n := by
  intro c hc
  rcases List.mem_append.mp hc with hc | hc
  · exact h c hc
  · rw [List.mem_singleton] at hc
    subst hc
    exact hp

theorem mention (h : i.Beyond n) : (i.mention name).Beyond n := by
  rwa [Beyond, mention_chunks]

theorem mentionAll {names : List String} (h : i.Beyond n) : (i.mentionAll names).Beyond n := by
  rw [mentionAll_eq]
  exact h

theorem call {target : String} (h : i.Beyond n)
    (hc : ∀ value, i.symbols.lookup target = some value → n < value.toNat) :
    (i.call target).Beyond n := by
  unfold Image.call
  split
  case h_1 hs =>
    refine h.add fun value he => hc value ?_
    cases he
    exact hs
  case h_2 => exact h.mention.add (by simp)

theorem steps (h : i.Beyond n) (hc : ∀ target value, .call target ∈ code →
      i.symbols.lookup target = some value → n < value.toNat) (hs : i.steps code = .ok k) :
    k.Beyond n := by
  induction code generalizing i
  case nil =>
    cases hs
    exact h
  case cons instruction code ih =>
    obtain ⟨j, hx, hs⟩ := steps_cons_eq_ok_iff.mp hs
    refine ih ?_ (fun target value ht => ?_) hs
    · rcases step_cases hx with ⟨name, -, -, -, rfl⟩ | ⟨target, rfl, rfl⟩ | ⟨bytes, -, -, rfl⟩
      · exact h.mention
      · exact h.call fun value => hc target value List.mem_cons_self
      · exact h.add (by simp)
    · rw [symbols_step hx]
      exact hc target value (List.mem_cons_of_mem _ ht)

theorem map_redirect {labels : List String} (h : i.Beyond n) (hn : labels.length ≤ n) :
    (i.chunks.map fun c => { c with piece := redirect labels c.piece }) = i.chunks := by
  refine (List.map_congr_left fun c hc => ?_).trans (List.map_id _)
  have same : redirect labels c.piece = c.piece := by
    cases hp : c.piece
    case callAddress value =>
      rw [redirect, numbered_eq_none (hn.trans_lt (h c hc value hp))]
      rfl
    all_goals rfl
  rw [same]
  rfl

end Beyond

theorem Ahead.finalize (h : Ahead [] i k) (hi : i.Tidy) (hk : k.Tidy) (hb : i.Beyond i.placed.length) :
    i.finalize = k.finalize := by
  have perm : i.labels.Perm k.labels :=
    (List.perm_ext_iff_of_nodup hi.nodup hk.nodup).mpr fun name => by simp [h.labels]
  have unresolved : i.unresolved = k.unresolved := by
    rw [Image.unresolved, Image.unresolved, h.placed]
    exact sorted_eq_of_perm (perm.filter _)
  rw [Image.finalize, Image.finalize, unresolved, h.pending]
  split
  case h_1 => rfl
  case h_2 hk' =>
    split
    case isTrue => rfl
    case isFalse hp =>
      have hp : i.pending = none := by simpa using hp
      have hi' := unresolved.trans hk'
      have count := (hi.labels_perm hi').length_eq
      rw [bytes, bytes, hi.map_resolve hi' hp, hk.map_resolve hk' (h.pending.trans hp), h.chunks,
        hb.map_redirect count.le, hb.map_redirect (perm.length_eq ▸ count.le), h.base]

-- Code comes out the same in one stream and in two, if the first one calls no symbol that only the
-- second one has as a label, and no symbol can be taken for a label.
theorem link_pair {base : BitVec 64} {symbols : List (String × BitVec 64)} {a b : List Instruction}
    (h : ∀ target, .call target ∈ a → .label target ∈ b → .label target ∉ a →
      symbols.lookup target = none)
    (beyond : ∀ target value, .call target ∈ a ++ b → symbols.lookup target = some value →
      (labelsOf (a ++ b)).length < value.toNat) :
    ({ base, symbols } : Image).link [a, b] = ({ base, symbols } : Image).link [a ++ b] := by
  let start : Image := { base, symbols }
  let first := start.mentionAll (labelsOf a)
  let both := first.mentionAll (labelsOf b)
  have tidy : first.Tidy := tidy_blank.mentionAll
  have symbols_eq : first.symbols = symbols := by
    simp only [first]
    rw [mentionAll_eq]
  have known : start.mentionAll (labelsOf (a ++ b)) = both := by
    simp [labelsOf, mentionAll, both, first]
  have blank : first.Beyond (labelsOf (a ++ b)).length := Beyond.mentionAll (by simp [Beyond, start])
  rw [link_cons, link_cons, known, steps_append]
  have ahead : Agree (Ahead (labelsOf b)) (first.steps a) (both.steps a) := by
    refine ahead_mentionAll.steps fun target ht hb ha => ?_
    rw [symbols_eq]
    rw [mem_mentionAll_labels, not_or, mem_labelsOf_iff] at ha
    exact h target ht (mem_labelsOf_iff.mp hb) ha.right
  have assoc : ((both.steps a).bind (·.steps b)).bind (·.link []) =
      (both.steps a).bind fun k => (k.steps b).bind (·.link []) := by
    cases both.steps a <;> rfl
  rw [assoc, ← agree_eq_iff]
  refine ahead.eq_ok.bind fun i k hik => ?_
  obtain ⟨hik, hi, hk⟩ := hik
  rw [link_cons]
  refine (hik.mentionAll.steps (by simp)).eq_ok.bind fun i' k' hik' => ?_
  obtain ⟨hik', hi', hk'⟩ := hik'
  rw [agree_eq_iff]
  refine hik'.finalize ((tidy.steps hi).mentionAll.steps hi') ((tidy.mentionAll.steps hk).steps hk') ?_
  have symbols_eq' : i.symbols = symbols := (symbols_steps hi).trans symbols_eq
  have placed : i'.placed.length = (labelsOf (a ++ b)).length := by
    have empty : first.placed = [] := by
      simp only [first]
      rw [mentionAll_eq]
    rw [placed_steps hi', mentionAll_eq, placed_steps hi, empty, labelsOf_append]
    simp [Nat.add_comm]
  rw [placed]
  have beyond_i := blank.steps (fun target value ht hs =>
    beyond target value (List.mem_append_left _ ht) (symbols_eq ▸ hs)) hi
  refine beyond_i.mentionAll.steps (fun target value ht hs => ?_) hi'
  rw [mentionAll_eq] at hs
  exact beyond target value (List.mem_append_right _ ht) (symbols_eq' ▸ hs)

theorem call_label_of_mem {symbols : List (String × BitVec 64)} {n : Nat} (hn : code[n]? = some (.call name))
    (hl : .label name ∈ code) : (lines symbols [] [code])[n]? = some (.call (.label name)) := by
  have known : name ∈ [] ++ labelsOf code := by simpa using mem_labelsOf_iff.mpr hl
  rw [lines, lines, List.append_nil, List.getElem?_map, hn]
  simp only [Option.map_some, Line.of, Destination.of]
  rw [if_pos known]

-- Code comes out the same in one stream and in two, unless the first one calls a symbol that only
-- the second one has as a label, or the address of a symbol is the number of a label. A call of the
-- first stream to a label of the second one leads there.
theorem link_append (base : BitVec 64) (symbols : List (String × BitVec 64)) (a b : List Instruction)
    (h : ∀ target, .call target ∈ a → .label target ∈ b → .label target ∉ a →
      symbols.lookup target = none)
    (beyond : ∀ target value, .call target ∈ a ++ b → symbols.lookup target = some value →
      (labelsOf (a ++ b)).length < value.toNat) :
    ({ base, symbols } : Image).link [a, b] = ({ base, symbols } : Image).link [a ++ b] ∧
    ∀ bytes, ({ base, symbols } : Image).link [a, b] = .ok bytes →
      ∃ parts, parts.flatten <+: bytes ∧ Listing base bytes (lines symbols [] [a ++ b]) parts ∧
        ∀ (k j : Nat) name, a[k]? = some (.call name) → b[j]? = some (.label name) →
          ∃ part d, parts[k]? = some part ∧ Decodes part d ∧
            d.LeadsTo base bytes (base + BitVec.ofNat 64 (offset parts (k + 1)))
              (base + BitVec.ofNat 64 (offset parts (a.length + j))) := by
  have same : ({ base, symbols } : Image).link [a, b] = ({ base, symbols } : Image).link [a ++ b] :=
    link_pair h beyond
  refine ⟨same, fun bytes hb => ?_⟩
  obtain ⟨labels, parts, far, perm, hbytes, -, listing⟩ := exists_listing (same ▸ hb)
  rw [List.flatten_singleton] at perm
  rw [map_redirect_lines (by simpa [perm.length_eq] using beyond)] at listing
  refine ⟨parts, hbytes ▸ List.prefix_append .., listing, fun k j name hk hj => ?_⟩
  have hj : (a ++ b)[a.length + j]? = some (.label name) := by
    rwa [List.getElem?_append_right (by omega), Nat.add_sub_cancel_left]
  have hk : (a ++ b)[k]? = some (.call name) := by
    obtain ⟨hlt, _⟩ := List.getElem?_eq_some_iff.mp hk
    rwa [List.getElem?_append_left hlt]
  obtain ⟨part, d, target, hp, hd, leads, j', hj', rfl⟩ :=
    listing.call k (.label name) (call_label_of_mem hk (List.mem_of_getElem? hj))
  have hj : (lines symbols [] [a ++ b])[a.length + j]? = some (.label name) :=
    lines_eq_label_iff.mpr (by rwa [List.flatten_singleton])
  rw [listing.unique _ _ name hj hj']
  exact ⟨part, d, hp, hd, leads⟩

-- The second stream has a label that the first one calls, besides a symbol. The call comes out with a
-- distance of six bytes: behind it are a call of five and a return.
theorem link_append_forward :
    let symbols : List (String × BitVec 64) := [("puts", 0x2000)]
    let a : List Instruction := [.label "main", .call "helper", .call "puts", .ret]
    let b : List Instruction := [.label "helper", .ret]
    let bytes : List UInt8 := [0xE8, 6, 0, 0, 0, 0xE8, 0xF6, 0x0F, 0, 0, 0xC3, 0xC3]
    ({ base := 0x1000, symbols } : Image).link [a, b] = .ok bytes ∧
    ({ base := 0x1000, symbols } : Image).link [a ++ b] = .ok bytes ∧
    ∃ parts part d, parts[1]? = some part ∧ Decodes part d ∧
      d.LeadsTo 0x1000 bytes (0x1000 + BitVec.ofNat 64 (offset parts 2))
        (0x1000 + BitVec.ofNat 64 (offset parts 4)) := by
  intro symbols a b bytes
  have h (target : String) (_ : .call target ∈ a) (hb : .label target ∈ b) (_ : .label target ∉ a) :
      symbols.lookup target = none := by
    obtain rfl : target = "helper" := by simpa [b] using hb
    rfl
  have beyond (target : String) (value : BitVec 64) (ht : .call target ∈ a ++ b)
      (hs : symbols.lookup target = some value) : (labelsOf (a ++ b)).length < value.toNat := by
    have : target = "helper" ∨ target = "puts" := by simpa [a, b] using ht
    rcases this with rfl | rfl <;> cases hs
    decide
  obtain ⟨same, leads⟩ := link_append 0x1000 symbols a b h beyond
  have linked : ({ base := 0x1000, symbols } : Image).link [a, b] = .ok bytes := by decide +kernel
  obtain ⟨parts, -, -, leads⟩ := leads bytes linked
  obtain ⟨part, d, hp, hd, leads⟩ := leads 1 0 "helper" rfl rfl
  exact ⟨linked, same ▸ linked, parts, part, d, hp, hd, leads⟩

-- Labels are numbered in another order when they are all known beforehand, so that a symbol at a number
-- of theirs is called elsewhere.
example :
    let a : List Instruction := [.call "x", .call "f", .ret]
    let b : List Instruction := [.label "y", .ret, .label "x", .ret]
    ({ base := 0x1000, symbols := [("f", 1)] } : Image).link [a, b] =
        .ok [0xE8, 7, 0, 0, 0, 0xE8, 2, 0, 0, 0, 0xC3, 0xC3, 0xC3] ∧
      ({ base := 0x1000, symbols := [("f", 1)] } : Image).link [a ++ b] =
        .ok [0xE8, 7, 0, 0, 0, 0xE8, 1, 0, 0, 0, 0xC3, 0xC3, 0xC3] := by
  decide +kernel

-- A symbol that the second stream has as a label is called in two streams, and the label in one.
theorem not_link_append_shadowed :
    ({ base := 0x1000, symbols := [("f", 0x2000)] } : Image).link [[.call "f", .ret], [.label "f", .ret]] ≠
      ({ base := 0x1000, symbols := [("f", 0x2000)] } : Image).link
        [[.call "f", .ret] ++ [.label "f", .ret]] := by
  decide +kernel

end Machine.Image

end StackCompiler
