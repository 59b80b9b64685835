import StackCompiler.Proofs.Machine.Resolution

-- Which streams can be encoded, and what code without calls comes to.

namespace StackCompiler.Machine

-- The bytes of an instruction that encodes alike wherever it stands.
def Instruction.bytes (i : Instruction) : List UInt8 :=
  i.encoding.toOption.getD []

-- Something follows every label before the next label comes. A label may wait at the beginning.
def Spaced : (waiting : Bool) → List Instruction → Bool
  | waiting, [] => !waiting
  | waiting, .label _ :: code => !waiting && Spaced true code
  | _, _ :: code => Spaced false code

namespace Image

variable {i k : Image} {name : String} {instruction : Instruction} {code : List Instruction}
variable {content : List UInt8}

theorem spaced_cons {waiting : Bool} (h : instruction.isLabel = false) :
    Spaced waiting (instruction :: code) = Spaced false code := by
  cases instruction <;> first | rfl | cases h

theorem labelsOf_cons (h : instruction.isLabel = false) :
    labelsOf (instruction :: code) = labelsOf code := by
  cases instruction <;> first | rfl | cases h

theorem step_label_eq_ok_iff : i.step (.label name) = .ok k ↔
    name ∉ i.placed ∧ i.pending = none ∧ k = i.label name := by
  rw [step]
  split
  case isTrue hp => simp [hp]
  case isFalse hp =>
    split
    case isTrue hw =>
      have waits : i.pending ≠ none := fun h => by simp [h] at hw
      simp [waits]
    case isFalse hw =>
      have free : i.pending = none := by simpa using hw
      simp [hp, free, eq_comm]

-- Other instructions make an image fail only if they have no encoding.
theorem exists_step_iff (h : instruction.isLabel = false) :
    (∃ k, i.step instruction = .ok k) ↔ ∃ bytes, instruction.encoding = .ok bytes := by
  by_cases plain : instruction.isPlain = true
  case pos =>
    rw [step_of_isPlain plain]
    cases instruction.encoding <;> simp [Except.map]
  case neg =>
    cases instruction
    case label => cases h
    case call => simp [step, Instruction.encoding]
    all_goals exact absurd rfl plain

theorem pending_placed_step (h : instruction.isLabel = false) (hs : i.step instruction = .ok k) :
    k.pending = none ∧ k.placed = i.placed := by
  rcases step_cases hs with ⟨name, rfl, -⟩ | ⟨target, rfl, rfl⟩ | ⟨bytes, -, -, rfl⟩
  case inl => cases h
  case inr.inl =>
    unfold Image.call
    split <;> simp [Image.add]
  case inr.inr => exact ⟨rfl, rfl⟩

-- A stream is encoded and no label is left waiting just if every instruction has an encoding, no label
-- is there twice and something follows each of them.
theorem exists_steps_iff : (∃ k, i.steps code = .ok k ∧ k.pending = none) ↔
    (∀ instruction ∈ code, ∃ bytes, instruction.encoding = .ok bytes) ∧
    ((labelsOf code).Nodup ∧ ∀ name ∈ labelsOf code, name ∉ i.placed) ∧
    Spaced i.pending.isSome code = true := by
  induction code generalizing i
  case nil => simp [steps, labelsOf, Spaced]
  case cons instruction code ih =>
    have first : (∃ k, i.steps (instruction :: code) = .ok k ∧ k.pending = none) ↔
        ∃ j, i.step instruction = .ok j ∧ ∃ k, j.steps code = .ok k ∧ k.pending = none := by
      simp only [steps_cons_eq_ok_iff, ← exists_and_left, ← exists_and_right, and_assoc]
      exact exists_comm
    rw [first]
    simp only [ih, List.forall_mem_cons]
    cases hl : instruction.isLabel
    case false =>
      rw [labelsOf_cons hl, spaced_cons hl, ← exists_step_iff (i := i) hl]
      constructor
      case mp =>
        rintro ⟨j, hj, rest⟩
        obtain ⟨pending, placed⟩ := pending_placed_step hl hj
        rw [pending, placed] at rest
        exact ⟨⟨⟨j, hj⟩, rest.left⟩, rest.right⟩
      case mpr =>
        rintro ⟨⟨⟨j, hj⟩, encodings⟩, rest⟩
        obtain ⟨pending, placed⟩ := pending_placed_step hl hj
        refine ⟨j, hj, ?_⟩
        rw [pending, placed]
        exact ⟨encodings, rest⟩
    case true =>
      cases instruction <;> cases hl
      case label name =>
        simp only [step_label_eq_ok_iff]
        constructor
        case mp =>
          rintro ⟨_, ⟨unplaced, free, rfl⟩, encodings, ⟨nodup, fresh⟩, spaced⟩
          refine ⟨⟨⟨[], rfl⟩, encodings⟩, ⟨List.nodup_cons.mpr ⟨?_, nodup⟩, ?_⟩, ?_⟩
          · exact fun hn => fresh name hn List.mem_cons_self
          · exact List.forall_mem_cons.mpr
              ⟨unplaced, fun other ho hp => fresh other ho (List.mem_cons_of_mem _ hp)⟩
          · simpa [Spaced, free, Image.label] using spaced
        case mpr =>
          rintro ⟨⟨-, encodings⟩, ⟨nodup, fresh⟩, spaced⟩
          obtain ⟨once, nodup⟩ := List.nodup_cons.mp nodup
          obtain ⟨unplaced, fresh⟩ := List.forall_mem_cons.mp fresh
          have apart : i.pending = none ∧ Spaced true code = true := by simpa [Spaced] using spaced
          refine ⟨_, ⟨unplaced, apart.left, rfl⟩, encodings, ⟨nodup, fun other ho hp => ?_⟩,
            apart.right⟩
          rcases List.mem_cons.mp hp with rfl | hp
          exacts [once ho, fresh other ho hp]

theorem exists_encode_iff : (∃ k, after (encode code) i = .ok k ∧ k.pending = none) ↔
    (∀ instruction ∈ code, ∃ bytes, instruction.encoding = .ok bytes) ∧
    ((labelsOf code).Nodup ∧ ∀ name ∈ labelsOf code, name ∉ i.placed) ∧
    Spaced i.pending.isSome code = true := by
  rw [after_encode, exists_steps_iff, mentionAll_eq]

-- The image holds the content in pieces that stand for themselves.
def Holds (i : Image) (content : List UInt8) : Prop :=
  ∃ parts : List (List UInt8), i.chunks.map Chunk.piece = parts.map .bytes ∧ content = parts.flatten

theorem Holds.add {bytes : List UInt8} (h : i.Holds content) :
    (i.add (.bytes bytes)).Holds (content ++ bytes) := by
  obtain ⟨parts, hp, rfl⟩ := h
  exact ⟨parts ++ [bytes], by simp [Image.add, hp], by simp⟩

theorem Holds.step (h : i.Holds content) (hc : ∀ target, instruction ≠ .call target)
    (hs : i.step instruction = .ok k) : k.Holds (content ++ instruction.bytes) := by
  rcases step_cases hs with ⟨name, rfl, -, -, rfl⟩ | ⟨target, rfl, -⟩ | ⟨bytes, -, he, rfl⟩
  case inl =>
    have none : (Instruction.label name).bytes = [] := rfl
    rw [none, List.append_nil]
    simpa [Holds, Image.label] using h
  case inr.inl => exact absurd rfl (hc target)
  case inr.inr =>
    have bytes_eq : instruction.bytes = bytes := by simp [Instruction.bytes, he, Except.toOption]
    rw [bytes_eq]
    exact h.add

theorem Holds.steps (h : i.Holds content) (hc : ∀ target, .call target ∉ code)
    (hs : i.steps code = .ok k) : k.Holds (content ++ code.flatMap Instruction.bytes) := by
  induction code generalizing i content
  case nil =>
    cases hs
    simpa using h
  case cons instruction code ih =>
    obtain ⟨j, hx, hs⟩ := steps_cons_eq_ok_iff.mp hs
    have first := h.step (fun target he => hc target (he ▸ List.mem_cons_self)) hx
    have rest := ih first (fun target ht => hc target (List.mem_cons_of_mem _ ht)) hs
    rwa [List.append_assoc, ← List.flatMap_cons] at rest

theorem Holds.encode (h : i.Holds content) (hc : ∀ target, .call target ∉ code)
    (he : after (encode code) i = .ok k) : k.Holds (content ++ code.flatMap Instruction.bytes) := by
  rw [after_encode] at he
  refine Holds.steps ?_ hc he
  rw [mentionAll_eq]
  exact h

-- Such pieces have no pointers behind them.
theorem write_of_bytes (address : String → BitVec 64) (ip pointer : BitVec 64) {chunks : List Chunk}
    {parts : List (List UInt8)} (h : chunks.map Chunk.piece = parts.map .bytes) :
    write address pointer (place ip chunks) = .ok parts.flatten ∧
      farTargets (place ip chunks) = [] := by
  induction chunks generalizing ip parts
  case nil =>
    rw [List.map_nil, eq_comm, List.map_eq_nil_iff] at h
    subst h
    exact ⟨rfl, rfl⟩
  case cons c chunks ih =>
    cases parts
    case nil => cases h
    case cons part parts =>
      rw [List.map_cons, List.map_cons, List.cons.injEq] at h
      obtain ⟨written, near⟩ := ih (ip + BitVec.ofNat 64 (pieceSize ip c.piece)) h.right
      rw [place]
      constructor
      case left =>
        simp only [write, h.left, pieceBytes, nextPointer, bind, Except.bind]
        rw [h.left] at written
        rw [written]
        rfl
      case right =>
        rw [farTargets, List.filterMap_cons_none (by simp [h.left])]
        exact near

theorem Holds.bytes_eq_ok (h : i.Holds content) : i.bytes = .ok content := by
  obtain ⟨parts, hp, rfl⟩ := h
  have resolved : i.chunks.map (fun c => { c with piece := i.resolve c.piece }) = i.chunks := by
    refine (List.map_congr_left fun c hc => ?_).trans (List.map_id _)
    have piece : c.piece ∈ parts.map .bytes := hp ▸ List.mem_map_of_mem hc
    obtain ⟨part, -, he⟩ := List.mem_map.mp piece
    have same : i.resolve c.piece = c.piece := by
      rw [← he]
      rfl
    rw [same]
    rfl
  obtain ⟨written, near⟩ := write_of_bytes (addressOf (place i.base i.chunks)) i.base
    (endAddress i.base i.chunks + BitVec.ofNat 64 (padding (endAddress i.base i.chunks))) hp
  rw [bytes, resolved]
  simp only [written, near, bind, Except.bind]
  simp [pointers, pure, Except.pure]

theorem link_singleton : i.link [code] = (after (encode code) i).bind finalize := by
  rw [link_cons, after_encode]
  rfl

-- Code without calls becomes the bytes of its instructions, if it can be encoded.
theorem link_eq_ok_iff {base : BitVec 64} {symbols : List (String × BitVec 64)} {bytes : List UInt8}
    (hc : ∀ target, .call target ∉ code) :
    ({ base, symbols } : Image).link [code] = .ok bytes ↔
      (∀ instruction ∈ code, ∃ bytes, instruction.encoding = .ok bytes) ∧
      (labelsOf code).Nodup ∧ Spaced false code = true ∧ bytes = code.flatMap Instruction.bytes := by
  have blank : ({ base, symbols } : Image).Holds [] := ⟨[], rfl, rfl⟩
  rw [link_singleton]
  constructor
  case mp =>
    intro h
    cases he : after (encode code) { base, symbols } <;> rw [he] at h
    case error => cases h
    case ok k =>
      obtain ⟨-, free, hb⟩ := finalize_eq_ok h
      obtain ⟨encodings, ⟨nodup, -⟩, spaced⟩ := exists_encode_iff.mp ⟨k, he, free⟩
      cases hb.symm.trans (blank.encode hc he).bytes_eq_ok
      exact ⟨encodings, nodup, spaced, rfl⟩
  case mpr =>
    rintro ⟨encodings, nodup, spaced, rfl⟩
    obtain ⟨k, he, free⟩ := (exists_encode_iff (i := { base, symbols })).mpr
      ⟨encodings, ⟨nodup, by simp⟩, spaced⟩
    have takes := takes_encode tidy_blank he
    have resolved : k.unresolved = [] := by
      rw [unresolved_eq_nil_iff]
      intro name hn
      rw [takes.placed, List.append_nil, List.mem_reverse, mem_labelsOf_iff]
      exact (((takes.labels name).mp hn).resolve_left List.not_mem_nil).resolve_right
        fun called => hc name called.left
    rw [he, Except.bind, finalize, resolved, free]
    exact (blank.encode hc he).bytes_eq_ok

end Image

end StackCompiler.Machine
