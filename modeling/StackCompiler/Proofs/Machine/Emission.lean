import StackCompiler.Machine.Image

-- What encoding makes of an image, instruction by instruction, if what was done before an error does
-- not matter.

namespace StackCompiler.Machine

-- The bytes of an instruction that encodes alike wherever it stands. Labels and calls have none.
def Instruction.encoding : Instruction → Except EncodingError (List UInt8)
  | .push r => return Encoding.push (← generalNumber r)
  | .pop r => return Encoding.pop (← generalNumber r)
  | .subImm r value => return Encoding.sub (← generalNumber r) (← immediate value)
  | .addImm r value => return Encoding.add (← generalNumber r) (← immediate value)
  | .move dst src =>
    if dst.bank = Register.vectorBank then
      return Encoding.moveVector (← vectorNumber dst) (← vectorNumber src)
    else
      return Encoding.moveGeneral (← generalNumber dst) (← generalNumber src)
  | .ret => .ok [0xC3]
  | .byte value => .ok [value]
  | .label _ | .call _ => .ok []

-- Whether the instruction is neither a label nor a call.
def Instruction.isPlain : Instruction → Bool
  | .label _ | .call _ => false
  | _ => true

namespace Image

-- The image that a step leaves, if it does not fail.
def after (x : Emit Unit) (i : Image) : Except EncodingError Image :=
  match x i with
  | .ok _ k => .ok k
  | .error e _ => .error e

section After

variable {i k : Image} {f : α → Emit Unit} {e : EncodingError}

theorem after_bind {x y : Emit Unit} : after (do x; y) i = (after x i).bind (after y) := by
  simp only [after, bind, EStateM.bind]
  cases x i <;> rfl

theorem after_get {f : Image → Emit Unit} : after (get >>= f) i = after (f i) i :=
  rfl

theorem after_set : after (set k) i = .ok k :=
  rfl

theorem after_modify {g : Image → Image} : after (modify g) i = .ok (g i) :=
  rfl

theorem after_throw : after (throw e) i = .error e :=
  rfl

theorem after_ite {c : Prop} [Decidable c] {x y : Emit Unit} :
    after (if c then x else y) i = if c then after x i else after y i := by
  split <;> rfl

theorem after_ofExcept {x : Except EncodingError α} :
    after (do f (← ofExcept x)) i = x.bind fun a => after (f a) i := by
  cases x <;> rfl

end After

-- The image with a label at the place of the next piece.
def label (i : Image) (name : String) : Image :=
  { i.mention name with placed := name :: i.placed, pending := some name }

def call (i : Image) (target : String) : Image :=
  match i.labels.contains target, i.symbols.lookup target with
  | false, some address => i.add (.callAddress address)
  | _, _ => (i.mention target).add (.callLabel target)

def step (i : Image) : Instruction → Except EncodingError Image
  | .label name =>
    if name ∈ i.placed then .error (.duplicateLabel name)
    else if i.pending.isSome then .error .labelPending
    else .ok (i.label name)
  | .call target => .ok (i.call target)
  | instruction => instruction.encoding.map fun bytes => i.add (.bytes bytes)

variable {i k : Image} {name : String} {instruction : Instruction} {code more : List Instruction}

@[simp]
theorem mention_placed : (i.mention name).placed = i.placed := by
  unfold mention
  split <;> rfl

@[simp]
theorem mention_pending : (i.mention name).pending = i.pending := by
  unfold mention
  split <;> rfl

@[simp]
theorem mention_chunks : (i.mention name).chunks = i.chunks := by
  unfold mention
  split <;> rfl

@[simp]
theorem mention_symbols : (i.mention name).symbols = i.symbols := by
  unfold mention
  split <;> rfl

@[simp]
theorem mention_base : (i.mention name).base = i.base := by
  unfold mention
  split <;> rfl

theorem mem_mention_labels {other : String} :
    other ∈ (i.mention name).labels ↔ other ∈ i.labels ∨ other = name := by
  unfold mention
  split
  case isTrue h =>
    rw [List.contains_iff_mem] at h
    exact ⟨.inl, fun h' => h'.elim id (· ▸ h)⟩
  case isFalse => simp

theorem call_eq_address {target : String} {address : BitVec 64} (hl : target ∉ i.labels)
    (hs : i.symbols.lookup target = some address) : i.call target = i.add (.callAddress address) := by
  have unknown : i.labels.contains target = false := by simpa using hl
  simp only [call, unknown, hs]

theorem call_eq_label {target : String} (h : target ∈ i.labels ∨ i.symbols.lookup target = none) :
    i.call target = (i.mention target).add (.callLabel target) := by
  unfold call
  split
  case h_1 hl hs =>
    have hl : target ∉ i.labels := by simpa using hl
    rw [h.resolve_left hl] at hs
    cases hs
  case h_2 => rfl

theorem after_encodeInstruction : after (encodeInstruction instruction) i = i.step instruction := by
  cases instruction
  case label name =>
    simp only [encodeInstruction, placeLabel, step, after_get, after_ite, after_bind, after_set,
      after_throw, Except.bind, mention_pending, List.contains_iff_mem]
    rfl
  case call => rfl
  case ret => rfl
  case byte => rfl
  case push r =>
    simp only [encodeInstruction, step, Instruction.encoding, after_ofExcept]
    cases generalNumber r <;> rfl
  case pop r =>
    simp only [encodeInstruction, step, Instruction.encoding, after_ofExcept]
    cases generalNumber r <;> rfl
  case subImm r value =>
    simp only [encodeInstruction, step, Instruction.encoding, after_ofExcept]
    cases generalNumber r <;> cases immediate value <;> rfl
  case addImm r value =>
    simp only [encodeInstruction, step, Instruction.encoding, after_ofExcept]
    cases generalNumber r <;> cases immediate value <;> rfl
  case move dst src =>
    simp only [encodeInstruction, step, Instruction.encoding, after_ite, after_ofExcept]
    split
    · cases vectorNumber dst <;> cases vectorNumber src <;> rfl
    · cases generalNumber dst <;> cases generalNumber src <;> rfl

def steps (i : Image) : List Instruction → Except EncodingError Image
  | [] => .ok i
  | instruction :: rest => (i.step instruction).bind (·.steps rest)

theorem steps_cons_eq_ok_iff : i.steps (instruction :: code) = .ok k ↔
    ∃ j, i.step instruction = .ok j ∧ j.steps code = .ok k := by
  rw [steps]
  cases i.step instruction <;> simp [Except.bind]

theorem steps_append : i.steps (code ++ more) = (i.steps code).bind (·.steps more) := by
  induction code generalizing i
  case nil => rfl
  case cons instruction code ih =>
    simp only [List.cons_append, steps]
    cases i.step instruction
    case error => rfl
    case ok => exact ih

theorem after_forM : after (code.forM encodeInstruction) i = i.steps code := by
  induction code generalizing i
  case nil => rfl
  case cons instruction code ih =>
    simp only [List.forM_eq_forM, List.forM_cons, after_bind, after_encodeInstruction, steps] at ih ⊢
    cases i.step instruction
    case error => rfl
    case ok => exact ih

theorem mem_labelsOf_iff : name ∈ labelsOf code ↔ .label name ∈ code := by
  rw [labelsOf, List.mem_filterMap]
  constructor
  case mp =>
    rintro ⟨instruction, hi, he⟩
    cases instruction <;> cases he
    exact hi
  case mpr => exact fun hi => ⟨_, hi, rfl⟩

theorem labelsOf_append : labelsOf (code ++ more) = labelsOf code ++ labelsOf more :=
  List.filterMap_append

-- The image in which the names are known as labels.
def mentionAll (i : Image) (names : List String) : Image :=
  names.foldl mention i

theorem after_encode : after (encode code) i = (i.mentionAll (labelsOf code)).steps code := by
  rw [encode, after_bind, after_modify]
  exact after_forM

-- The bytes that streams come to, one encoded after the other.
def link (i : Image) : List (List Instruction) → Except EncodingError (List UInt8)
  | [] => i.finalize
  | code :: rest =>
    match encode code i with
    | .ok _ k => k.link rest
    | .error e _ => .error e

theorem link_cons {rest : List (List Instruction)} :
    i.link (code :: rest) = ((i.mentionAll (labelsOf code)).steps code).bind (·.link rest) := by
  rw [← after_encode, link, after]
  cases encode code i <;> rfl

@[simp]
theorem mentionAll_cons {names : List String} :
    i.mentionAll (name :: names) = (i.mention name).mentionAll names :=
  rfl

-- Nothing changes but the labels.
theorem mentionAll_eq {names : List String} :
    i.mentionAll names = { i with labels := (i.mentionAll names).labels } := by
  induction names generalizing i
  case nil => rfl
  case cons name names ih =>
    rw [mentionAll_cons, ih]
    simp

theorem mem_mentionAll_labels {names : List String} {other : String} :
    other ∈ (i.mentionAll names).labels ↔ other ∈ i.labels ∨ other ∈ names := by
  induction names generalizing i
  case nil => simp [mentionAll]
  case cons name names ih => rw [mentionAll_cons, ih, mem_mention_labels, List.mem_cons, or_assoc]

-- What holds of every image on the way.
structure Tidy (i : Image) : Prop where
  nodup : i.labels.Nodup
  placed : i.placed.Nodup
  known : ∀ name ∈ i.placed, name ∈ i.labels
  -- A label with a place names a piece, or it will name the next one.
  named : ∀ name ∈ i.placed, i.pending = some name ∨ ∃ c ∈ i.chunks, c.label = some name
  mentioned : ∀ c ∈ i.chunks, ∀ name, c.piece = .callLabel name → name ∈ i.labels

theorem tidy_blank {base : BitVec 64} {symbols : List (String × BitVec 64)} :
    ({ base, symbols } : Image).Tidy where
  nodup := List.nodup_nil
  placed := List.nodup_nil
  known := by simp
  named := by simp
  mentioned := by simp

theorem Tidy.mention (h : i.Tidy) : (i.mention name).Tidy where
  nodup := by
    unfold Image.mention
    split
    case isTrue => exact h.nodup
    case isFalse hn =>
      rw [List.contains_iff_mem] at hn
      exact List.nodup_append.mpr ⟨h.nodup, by simp, by
        intro a ha b hb
        rw [List.mem_singleton] at hb
        exact fun e => hn (hb ▸ e ▸ ha)⟩
  placed := by simpa using h.placed
  known other ho := mem_mention_labels.mpr (.inl (h.known other (by simpa using ho)))
  named := by simpa using h.named
  mentioned c hc other ho := mem_mention_labels.mpr (.inl (h.mentioned c (by simpa using hc) other ho))

theorem Tidy.mentionAll {names : List String} (h : i.Tidy) : (i.mentionAll names).Tidy := by
  induction names generalizing i
  case nil => exact h
  case cons name names ih => exact ih h.mention

theorem Tidy.add {piece : Piece} (h : i.Tidy) (hp : ∀ name, piece = .callLabel name → name ∈ i.labels) :
    (i.add piece).Tidy where
  nodup := h.nodup
  placed := h.placed
  known := h.known
  named name hn := by
    right
    rcases h.named name hn with hp | ⟨c, hc, hl⟩
    · exact ⟨⟨i.pending, piece⟩, by simp [Image.add], hp⟩
    · exact ⟨c, by simp [Image.add, hc], hl⟩
  mentioned c hc name hn := by
    rcases List.mem_append.mp hc with hc | hc
    · exact h.mentioned c hc name hn
    · rw [List.mem_singleton] at hc
      subst hc
      exact hp name hn

theorem Tidy.call {target : String} (h : i.Tidy) : (i.call target).Tidy := by
  unfold Image.call
  split
  case h_1 => exact h.add (by simp)
  case h_2 =>
    refine h.mention.add fun name he => ?_
    cases he
    exact mem_mention_labels.mpr (.inr rfl)

theorem Tidy.label (h : i.Tidy) (hn : name ∉ i.placed) (hp : i.pending = none) :
    (i.label name).Tidy where
  nodup := (h.mention : (i.mention name).Tidy).nodup
  placed := List.nodup_cons.mpr ⟨hn, h.placed⟩
  known other ho := mem_mention_labels.mpr <|
    (List.mem_cons.mp ho).elim .inr fun ho => .inl (h.known other ho)
  named other ho := by
    rcases List.mem_cons.mp ho with rfl | ho
    · exact .inl rfl
    · right
      simpa [Image.label, hp] using h.named other ho
  mentioned := (h.mention : (i.mention name).Tidy).mentioned

theorem step_of_isPlain (h : instruction.isPlain = true) :
    i.step instruction = instruction.encoding.map fun bytes => i.add (.bytes bytes) := by
  cases instruction
  case label => cases h
  case call => cases h
  all_goals rfl

-- What a step can do.
theorem step_cases (h : i.step instruction = .ok k) :
    (∃ name, instruction = .label name ∧ name ∉ i.placed ∧ i.pending = none ∧ k = i.label name) ∨
    (∃ target, instruction = .call target ∧ k = i.call target) ∨
    ∃ bytes, instruction.isPlain = true ∧ instruction.encoding = .ok bytes ∧
      k = i.add (.bytes bytes) := by
  by_cases plain : instruction.isPlain = true
  case pos =>
    right
    right
    rw [step_of_isPlain plain] at h
    cases he : instruction.encoding <;> rw [he] at h <;> cases h
    exact ⟨_, plain, rfl, rfl⟩
  case neg =>
    cases instruction
    case label name =>
      left
      simp only [step] at h
      split at h
      case isTrue => cases h
      case isFalse hn =>
        split at h
        case isTrue => cases h
        case isFalse hp =>
          cases h
          exact ⟨name, rfl, hn, by simpa using hp, rfl⟩
    case call target =>
      cases h
      exact .inr (.inl ⟨target, rfl, rfl⟩)
    all_goals exact absurd rfl plain

theorem Tidy.step (h : i.Tidy) (hs : i.step instruction = .ok k) : k.Tidy := by
  rcases step_cases hs with ⟨name, -, hn, hp, rfl⟩ | ⟨target, -, rfl⟩ | ⟨bytes, -, -, rfl⟩
  · exact h.label hn hp
  · exact h.call
  · exact h.add (by simp)

theorem Tidy.steps (h : i.Tidy) (hs : i.steps code = .ok k) : k.Tidy := by
  induction code generalizing i
  case nil =>
    cases hs
    exact h
  case cons instruction code ih =>
    rw [Image.steps] at hs
    cases hx : i.step instruction <;> rw [hx] at hs
    case error => cases hs
    case ok => exact ih (h.step hx) hs

theorem unresolved_eq_nil_iff : i.unresolved = [] ↔ ∀ name ∈ i.labels, name ∈ i.placed := by
  rw [unresolved, ← List.length_eq_zero_iff, List.length_mergeSort, List.length_eq_zero_iff]
  simp

-- A call to the number of a label goes to the label.
def redirect (labels : List String) : Piece → Piece
  | .callAddress value => (numbered labels value).elim (.callAddress value) .callLabel
  | piece => piece

theorem mem_of_numbered {labels : List String} {value : BitVec 64} (h : numbered labels value = some name) :
    name ∈ labels := by
  rw [numbered] at h
  split at h
  case isTrue => cases h
  case isFalse => exact List.mem_of_getElem? h

-- No label has a number beyond that of the labels.
theorem numbered_eq_none {labels : List String} {value : BitVec 64} (h : labels.length < value.toNat) :
    numbered labels value = none := by
  rw [numbered]
  split
  case isTrue => rfl
  case isFalse => exact List.getElem?_eq_none (by omega)

theorem Tidy.names_of_resolved (h : i.Tidy) (hu : i.unresolved = []) (hp : i.pending = none)
    (hn : name ∈ i.labels) : i.names name = true := by
  have placed := unresolved_eq_nil_iff.mp hu name hn
  obtain ⟨d, hd, hl⟩ := (h.named name placed).resolve_left (by simp [hp])
  exact List.any_eq_true.mpr ⟨d, hd, by simp [hl]⟩

-- Once every label names a piece, every call to a label goes to the piece that the label names.
theorem Tidy.map_resolve (h : i.Tidy) (hu : i.unresolved = []) (hp : i.pending = none) :
    i.chunks.map (fun c => { c with piece := i.resolve c.piece }) =
      i.chunks.map fun c => { c with piece := redirect i.labels c.piece } := by
  refine List.map_congr_left fun c hc => ?_
  have same : i.resolve c.piece = redirect i.labels c.piece := by
    rcases he : c.piece with bytes | name | value
    case bytes => rfl
    case callLabel =>
      rw [resolve, h.names_of_resolved hu hp (h.mentioned c hc name he)]
      rfl
    case callAddress =>
      rw [resolve, redirect]
      cases hv : numbered i.labels value
      case none => rfl
      case some name =>
        rw [Option.filter_some_pos (h.names_of_resolved hu hp (mem_of_numbered hv))]
  rw [same]

end Image

end StackCompiler.Machine
