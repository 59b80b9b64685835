import Mathlib.Order.Bounds.Basic
import StackCompiler.Proofs.Machine.Layout
import StackCompiler.Proofs.Machine.Linking

-- The names in calls are resolved however labels, symbols and calls are spread over streams, and no
-- label is placed twice.

namespace StackCompiler.Machine.Image

-- The image after streams, if none of them fails.
def encodeAll (i : Image) : List (List Instruction) → Except EncodingError Image
  | [] => .ok i
  | code :: rest => (after (encode code) i).bind (·.encodeAll rest)

-- A stream only up to its instruction `n`, although all its labels are known.
def encodeUpTo (n : Nat) (code : List Instruction) : Emit Unit := do
  modify fun i => (labelsOf code).foldl mention i
  (code.take n).forM encodeInstruction

-- The labels of the pieces in their order, and the one that waits for the next piece.
def standing (i : Image) : List String :=
  i.chunks.filterMap Chunk.label ++ i.pending.toList

-- A name that is called although it is neither a label of any stream nor a symbol.
structure Dangling (symbols : List (String × BitVec 64)) (streams : List (List Instruction))
    (name : String) : Prop where
  called : .call name ∈ streams.flatten
  unplaced : .label name ∉ streams.flatten
  undefined : name ∉ symbols.map Prod.fst

variable {i k : Image} {name : String} {instruction : Instruction} {code : List Instruction}
variable {streams : List (List Instruction)} {e : EncodingError} {n : Nat}

theorem after_encodeUpTo :
    after (encodeUpTo n code) i = (i.mentionAll (labelsOf code)).steps (code.take n) := by
  rw [encodeUpTo, after_bind, after_modify]
  exact after_forM

-- A call makes its target a label, unless the target is a symbol.
theorem mem_call_labels {target : String} : name ∈ (i.call target).labels ↔
    name ∈ i.labels ∨ name = target ∧ i.symbols.lookup target = none := by
  by_cases hl : target ∈ i.labels
  case pos =>
    rw [call_eq_label (.inl hl)]
    refine mem_mention_labels.trans ⟨fun h => .inl ?_, fun h => h.imp_right And.left⟩
    rcases h with h | rfl
    exacts [h, hl]
  case neg =>
    cases hs : i.symbols.lookup target
    case none =>
      rw [call_eq_label (.inr hs)]
      exact mem_mention_labels.trans (by simp)
    case some address =>
      rw [call_eq_address hl hs]
      simp [Image.add]

theorem mem_labels_step (h : i.step instruction = .ok k) : name ∈ k.labels ↔
    name ∈ i.labels ∨ instruction = .label name ∨
      instruction = .call name ∧ i.symbols.lookup name = none := by
  rcases step_cases h with ⟨target, rfl, -, -, rfl⟩ | ⟨target, rfl, rfl⟩ | ⟨bytes, plain, -, rfl⟩
  case inl =>
    rw [Instruction.label.injEq, eq_comm (a := target)]
    exact mem_mention_labels.trans (by simp)
  case inr.inl =>
    rw [mem_call_labels, Instruction.call.injEq, eq_comm (a := target)]
    refine or_congr_right ?_
    rw [or_iff_right (by simp)]
    refine and_congr_right fun he => ?_
    rw [he]
  case inr.inr =>
    cases instruction
    case label => cases plain
    case call => cases plain
    all_goals simp [Image.add]

theorem mem_labels_steps (h : i.steps code = .ok k) : name ∈ k.labels ↔
    name ∈ i.labels ∨ .label name ∈ code ∨ .call name ∈ code ∧ i.symbols.lookup name = none := by
  induction code generalizing i
  case nil =>
    cases h
    simp
  case cons instruction code ih =>
    obtain ⟨j, hx, h⟩ := steps_cons_eq_ok_iff.mp h
    rw [ih h, mem_labels_step hx, symbols_step hx]
    simp only [List.mem_cons, eq_comm (a := instruction)]
    tauto

theorem standing_add {piece : Piece} : (i.add piece).standing = i.standing := by
  cases hp : i.pending <;> simp [standing, Image.add, hp]

theorem standing_mention : (i.mention name).standing = i.standing := by
  simp [standing]

theorem standing_mentionAll {names : List String} : (i.mentionAll names).standing = i.standing := by
  rw [mentionAll_eq]
  rfl

theorem standing_step (h : i.step instruction = .ok k) :
    k.standing = i.standing ++ labelsOf [instruction] := by
  rcases step_cases h with ⟨target, rfl, -, hp, rfl⟩ | ⟨target, rfl, rfl⟩ | ⟨bytes, plain, -, rfl⟩
  case inl => simp [standing, Image.label, labelsOf, hp]
  case inr.inl =>
    unfold Image.call
    split <;> simp [standing_add, standing_mention, labelsOf]
  case inr.inr =>
    cases instruction
    case label => cases plain
    all_goals simp [standing_add, labelsOf]

theorem standing_steps (h : i.steps code = .ok k) : k.standing = i.standing ++ labelsOf code := by
  induction code generalizing i
  case nil =>
    cases h
    simp [labelsOf]
  case cons instruction code ih =>
    obtain ⟨j, hx, h⟩ := steps_cons_eq_ok_iff.mp h
    rw [ih h, standing_step hx, List.append_assoc, ← labelsOf_append, List.singleton_append]

-- A stream fails where its first instruction fails.
theorem steps_eq_error_iff : i.steps code = .error e ↔
    ∃ (n : Nat) (instruction : Instruction) (k : Image), code[n]? = some instruction ∧
      i.steps (code.take n) = .ok k ∧ k.step instruction = .error e := by
  induction code generalizing i
  case nil => simp [steps]
  case cons first code ih =>
    rw [steps]
    cases hx : i.step first
    case error e' =>
      constructor
      case mp =>
        intro h
        cases h
        exact ⟨0, first, i, rfl, rfl, hx⟩
      case mpr =>
        rintro ⟨n, instruction, k, hn, hk, he⟩
        cases n
        case zero =>
          cases hn
          cases hk
          rw [← he, hx]
          rfl
        case succ n => simp [steps, hx, Except.bind] at hk
    case ok i' =>
      rw [Except.bind, ih]
      constructor
      case mp =>
        rintro ⟨n, instruction, k, hn, hk, he⟩
        refine ⟨n + 1, instruction, k, hn, ?_, he⟩
        rw [List.take_succ_cons, steps, hx]
        exact hk
      case mpr =>
        rintro ⟨n, instruction, k, hn, hk, he⟩
        cases n
        case zero =>
          cases hn
          cases hk
          rw [hx] at he
          cases he
        case succ n =>
          rw [List.take_succ_cons, steps, hx] at hk
          exact ⟨n, instruction, k, hn, hk, he⟩

theorem error_of_encoding (h : instruction.encoding = .error e) :
    (∃ r, e = .invalidRegister r) ∨ ∃ value, e = .immediateRange value := by
  cases instruction <;>
    simp only [Instruction.encoding, generalNumber, vectorNumber, immediate, bind, Except.bind, pure,
      Except.pure] at h <;> grind

theorem step_eq_duplicateLabel_iff : i.step instruction = .error (.duplicateLabel name) ↔
    instruction = .label name ∧ name ∈ i.placed := by
  by_cases plain : instruction.isPlain = true
  case pos =>
    refine iff_of_false (fun h => ?_) ?_
    · rw [step_of_isPlain plain] at h
      cases he : instruction.encoding <;> rw [he] at h <;> cases h
      rcases error_of_encoding he with ⟨_, h⟩ | ⟨_, h⟩ <;> cases h
    · rintro ⟨rfl, -⟩
      cases plain
  case neg =>
    cases instruction
    case label other =>
      simp only [step, Instruction.label.injEq]
      split
      case isTrue hp =>
        simp only [Except.error.injEq, EncodingError.duplicateLabel.injEq]
        exact (and_iff_left_of_imp fun he => he ▸ hp).symm
      case isFalse hp =>
        refine iff_of_false ?_ fun h => hp (h.left ▸ h.right)
        split <;> simp
    case call => simp [step]
    all_goals exact absurd rfl plain

-- The label that makes a stream fail was placed before it or stands in it a second time.
theorem encode_eq_duplicateLabel_iff : after (encode code) i = .error (.duplicateLabel name) ↔
    ∃ n, code[n]? = some (.label name) ∧ (name ∈ i.placed ∨ .label name ∈ code.take n) ∧
      ∃ k, after (encodeUpTo n code) i = .ok k := by
  have start : (i.mentionAll (labelsOf code)).placed = i.placed := by rw [mentionAll_eq]
  have placed {n : Nat} {k : Image} (h : (i.mentionAll (labelsOf code)).steps (code.take n) = .ok k) :
      name ∈ k.placed ↔ name ∈ i.placed ∨ .label name ∈ code.take n := by
    rw [placed_steps h, start, List.mem_append, List.mem_reverse, mem_labelsOf_iff, or_comm]
  simp only [after_encode, after_encodeUpTo, steps_eq_error_iff, step_eq_duplicateLabel_iff]
  refine exists_congr fun n => ⟨?_, ?_⟩
  · rintro ⟨_, k, hn, hk, rfl, hp⟩
    exact ⟨hn, (placed hk).mp hp, k, hk⟩
  · rintro ⟨hn, hp, k, hk⟩
    exact ⟨_, k, hn, hk, rfl, (placed hk).mpr hp⟩

-- Laying out can fail only if a displacement is too large.
theorem error_of_displacement {next target : BitVec 64} (h : displacement next target = .error e) :
    e = .outOfReach next target := by
  rw [displacement] at h
  split at h <;> cases h
  rfl

theorem error_of_pieceBytes {address : String → BitVec 64} {ip pointer : BitVec 64} {piece : Piece}
    (h : pieceBytes address ip pointer piece = .error e) :
    ∃ next target, e = .outOfReach next target := by
  cases piece
  case bytes => cases h
  case callLabel name =>
    simp only [pieceBytes] at h
    cases hd : displacement (ip + 5) (address name) <;> rw [hd] at h <;> cases h
    exact ⟨_, _, error_of_displacement hd⟩
  case callAddress target =>
    simp only [pieceBytes] at h
    split at h
    case isTrue =>
      cases hd : displacement (ip + 5) target <;> rw [hd] at h <;> cases h
      exact ⟨_, _, error_of_displacement hd⟩
    case isFalse =>
      cases hd : displacement (ip + 6) pointer <;> rw [hd] at h <;> cases h
      exact ⟨_, _, error_of_displacement hd⟩

theorem error_of_write {address : String → BitVec 64} {pointer : BitVec 64}
    {chunks : List (BitVec 64 × Chunk)} (h : write address pointer chunks = .error e) :
    ∃ next target, e = .outOfReach next target := by
  induction chunks generalizing pointer
  case nil => cases h
  case cons first rest ih =>
    obtain ⟨ip, c⟩ := first
    rw [write] at h
    cases hp : pieceBytes address ip pointer c.piece <;> simp only [hp, bind, Except.bind] at h
    case error =>
      cases h
      exact error_of_pieceBytes hp
    case ok =>
      cases hw : write address (nextPointer ip pointer c.piece) rest <;> rw [hw] at h <;> cases h
      exact ih hw

theorem error_of_bytes (h : i.bytes = .error e) : ∃ next target, e = .outOfReach next target := by
  simp only [bytes, bind, Except.bind] at h
  split at h
  case h_1 hw =>
    cases h
    exact error_of_write hw
  case h_2 => cases h

theorem mem_unresolved_iff : name ∈ i.unresolved ↔ name ∈ i.labels ∧ name ∉ i.placed := by
  simp [unresolved]

-- The name that is reported comes before all others that could be.
theorem finalize_eq_unknownTarget_iff : i.finalize = .error (.unknownTarget name) ↔
    IsLeast {name | name ∈ i.labels ∧ name ∉ i.placed} name := by
  have sorted : i.unresolved.Pairwise (· ≤ ·) := pairwise_sorted _
  simp only [← mem_unresolved_iff]
  rw [finalize]
  cases hu : i.unresolved
  case nil =>
    have reported : (if i.pending.isSome then .error .labelUnused else i.bytes) ≠
        .error (.unknownTarget name) := by
      split
      case isTrue => simp
      case isFalse =>
        intro h
        obtain ⟨_, _, he⟩ := error_of_bytes h
        cases he
    simp [IsLeast, reported]
  case cons first rest =>
    rw [hu] at sorted
    have least : IsLeast {name | name ∈ first :: rest} first :=
      ⟨List.mem_cons_self, fun other ho =>
        (List.mem_cons.mp ho).elim Eq.ge (List.rel_of_pairwise_cons sorted)⟩
    simp only [Except.error.injEq, EncodingError.unknownTarget.injEq]
    constructor
    · rintro rfl
      exact least
    · exact least.unique

theorem exists_unknownTarget_iff : (∃ name, i.finalize = .error (.unknownTarget name)) ↔
    ∃ name, name ∈ i.labels ∧ name ∉ i.placed := by
  constructor
  case mp =>
    rintro ⟨name, h⟩
    exact ⟨name, (finalize_eq_unknownTarget_iff.mp h).left⟩
  case mpr =>
    rintro ⟨name, h⟩
    rw [← mem_unresolved_iff] at h
    rw [finalize]
    cases hu : i.unresolved
    case nil =>
      rw [hu] at h
      cases h
    case cons first rest => exact ⟨first, rfl⟩

-- What instructions leave behind if none of them fails.
structure Takes (i : Image) (code : List Instruction) (k : Image) : Prop where
  tidy : k.Tidy
  symbols : k.symbols = i.symbols
  placed : k.placed = (labelsOf code).reverse ++ i.placed
  standing : k.standing = i.standing ++ labelsOf code
  labels : ∀ name, name ∈ k.labels ↔
    name ∈ i.labels ∨ .label name ∈ code ∨ .call name ∈ code ∧ i.symbols.lookup name = none

theorem Takes.trans {j : Image} {more : List Instruction} (h : i.Takes code j)
    (h' : j.Takes more k) : i.Takes (code ++ more) k where
  tidy := h'.tidy
  symbols := h'.symbols.trans h.symbols
  placed := by rw [h'.placed, h.placed, labelsOf_append, List.reverse_append, List.append_assoc]
  standing := by rw [h'.standing, h.standing, labelsOf_append, List.append_assoc]
  labels name := by
    rw [h'.labels, h.labels, h.symbols]
    simp only [List.mem_append]
    tauto

theorem takes_encode (tidy : i.Tidy) (h : after (encode code) i = .ok k) : i.Takes code k := by
  rw [after_encode] at h
  have symbols : (i.mentionAll (labelsOf code)).symbols = i.symbols := by rw [mentionAll_eq]
  refine ⟨tidy.mentionAll.steps h, ?symbols, ?placed, ?standing, fun name => ?labels⟩
  case symbols => rw [symbols_steps h, symbols]
  case placed => rw [placed_steps h, mentionAll_eq]
  case standing => rw [standing_steps h, standing_mentionAll]
  case labels =>
    rw [mem_labels_steps h, mem_mentionAll_labels, mem_labelsOf_iff, symbols]
    tauto

theorem takes_encodeAll (tidy : i.Tidy) (h : i.encodeAll streams = .ok k) :
    i.Takes streams.flatten k := by
  induction streams generalizing i
  case nil =>
    cases h
    exact ⟨tidy, rfl, rfl, by simp [labelsOf], by simp⟩
  case cons code streams ih =>
    rw [encodeAll] at h
    cases hs : after (encode code) i <;> rw [hs] at h
    case error => cases h
    case ok j =>
      have first := takes_encode tidy hs
      exact first.trans (ih first.tidy h)

theorem standing_encodeUpTo {l : Image} (h : i.Takes code k) (start : i.placed = i.standing.reverse)
    {next : List Instruction} (hl : after (encodeUpTo n next) k = .ok l) :
    l.standing = i.standing ++ labelsOf (code ++ next.take n) ∧ l.standing.Nodup := by
  rw [after_encodeUpTo] at hl
  have standing : l.standing = i.standing ++ labelsOf (code ++ next.take n) := by
    rw [standing_steps hl, standing_mentionAll, h.standing, labelsOf_append, List.append_assoc]
  have placed : l.placed = l.standing.reverse := by
    have known : (k.mentionAll (labelsOf next)).placed = k.placed := by rw [mentionAll_eq]
    rw [placed_steps hl, known, h.placed, start, standing, labelsOf_append]
    simp
  refine ⟨standing, ?_⟩
  rw [← List.nodup_reverse, ← placed]
  exact (h.tidy.mentionAll.steps hl).placed

theorem lookup_eq_none_iff {symbols : List (String × BitVec 64)} :
    symbols.lookup name = none ↔ name ∉ symbols.map Prod.fst := by
  rw [List.lookup_eq_none_iff, List.mem_map, not_exists]
  refine forall_congr' fun entry => ?_
  rw [not_and, bne_iff_ne, ne_comm]

-- Finishing fails for want of a target just if a call has none, whatever the streams are, and
-- reports the least such name. On the way no label gets a second place, and a stream that would give
-- it one fails at that label.
theorem encodeAll_resolves (base : BitVec 64) (symbols : List (String × BitVec 64))
    (streams : List (List Instruction)) (k : Image)
    (h : ({ base, symbols } : Image).encodeAll streams = .ok k) :
    ((∃ name, k.finalize = .error (.unknownTarget name)) ↔
      ∃ name, Dangling symbols streams name) ∧
    (∀ name, k.finalize = .error (.unknownTarget name) ↔
      IsLeast {name | Dangling symbols streams name} name) ∧
    (∀ n code l, after (encodeUpTo n code) k = .ok l →
      l.standing = labelsOf (streams.flatten ++ code.take n) ∧ l.standing.Nodup) ∧
    ∀ code name, after (encode code) k = .error (.duplicateLabel name) ↔
      ∃ n, code[n]? = some (.label name) ∧
        (.label name ∈ streams.flatten ∨ .label name ∈ code.take n) ∧
        ∃ l, after (encodeUpTo n code) k = .ok l := by
  have takes := takes_encodeAll tidy_blank h
  have placed (name : String) : name ∈ k.placed ↔ .label name ∈ streams.flatten := by
    rw [takes.placed, List.append_nil, List.mem_reverse, mem_labelsOf_iff]
  have dangling (name : String) :
      name ∈ k.labels ∧ name ∉ k.placed ↔ Dangling symbols streams name := by
    rw [takes.labels, placed, lookup_eq_none_iff]
    constructor
    · rintro ⟨hl, hp⟩
      obtain ⟨called, undefined⟩ := (hl.resolve_left List.not_mem_nil).resolve_left hp
      exact ⟨called, hp, undefined⟩
    · rintro ⟨called, unplaced, undefined⟩
      exact ⟨.inr (.inr ⟨called, undefined⟩), unplaced⟩
  have reported (name : String) : k.finalize = .error (.unknownTarget name) ↔
      IsLeast {name | Dangling symbols streams name} name := by
    simp only [finalize_eq_unknownTarget_iff, dangling]
  refine ⟨?some, reported, fun n code l hl => standing_encodeUpTo takes rfl hl, ?duplicate⟩
  case some =>
    simp only [← dangling]
    exact exists_unknownTarget_iff
  case duplicate =>
    intro code name
    simp only [encode_eq_duplicateLabel_iff, placed]

-- Calls forwards and backwards between two streams, to a symbol, and to two names that stand for
-- nothing.
theorem encodeAll_resolves_mutual :
    let symbols : List (String × BitVec 64) := [("puts", 0x2000)]
    let streams : List (List Instruction) :=
      [[.label "main", .call "helper", .call "zeta", .call "puts", .ret],
        [.label "helper", .call "main", .call "alpha", .ret]]
    ∃ k, ({ base := 0x1000, symbols } : Image).encodeAll streams = .ok k ∧
      k.finalize = .error (.unknownTarget "alpha") ∧
      after (encode [.ret, .label "last", .call "helper", .label "main"]) k =
        .error (.duplicateLabel "main") := by
  intro symbols streams
  have names (name : String) (h : Dangling symbols streams name) : name = "zeta" ∨ name = "alpha" := by
    obtain ⟨called, unplaced, undefined⟩ := h
    simp [streams, symbols] at called unplaced undefined
    tauto
  let next : List Instruction := [.ret, .label "last", .call "helper", .label "main"]
  have run : ((({ base := 0x1000, symbols } : Image).encodeAll streams).bind
      (after (encodeUpTo 3 next))).isOk = true := by decide +kernel
  cases hk : ({ base := 0x1000, symbols } : Image).encodeAll streams <;> rw [hk] at run
  case error => cases run
  case ok k =>
    obtain ⟨-, least, -, duplicate⟩ := encodeAll_resolves 0x1000 symbols streams k hk
    refine ⟨k, rfl, (least "alpha").mpr ⟨⟨by decide, by decide, by decide⟩, ?least⟩, ?duplicate⟩
    case least =>
      intro name hn
      rcases names name hn with rfl | rfl <;> decide +kernel
    case duplicate =>
      refine (duplicate next "main").mpr ⟨3, rfl, .inl (by decide), ?_⟩
      cases hl : after (encodeUpTo 3 next) k <;> simp only [Except.bind, hl] at run
      case error => cases run
      case ok l => exact ⟨l, rfl⟩

end StackCompiler.Machine.Image
