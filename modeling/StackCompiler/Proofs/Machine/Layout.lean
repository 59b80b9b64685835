import Mathlib.Data.List.Nodup
import StackCompiler.Proofs.Semantics.Decoding

-- Finished code read back: every instruction of the streams is found in its place, and every call
-- goes where its name leads.

namespace StackCompiler.Machine

-- What the name in a call stands for.
inductive Destination where
  | label (name : String)
  | address (value : Word)
deriving DecidableEq, Repr

-- A name is a label if one is known by it. Only other names can be symbols.
def Destination.of (symbols : List (String × Word)) (known : List String) (name : String) : Destination :=
  if name ∈ known then .label name
  else
    match symbols.lookup name with
    | some value => .address value
    | none => .label name

-- An instruction whose call, if it is one, has found its destination.
inductive Line where
  | label (name : String)
  | plain (instruction : Instruction)
  | call (dest : Destination)
deriving DecidableEq, Repr

-- The address outside that a line calls.
def Line.address? : Line → Option Word
  | .call (.address value) => some value
  | _ => none

def Line.of (symbols : List (String × Word)) (known : List String) : Instruction → Line
  | .label name => .label name
  | .call target => .call (.of symbols known target)
  | instruction => .plain instruction

-- The lines of streams. Each stream knows its own labels and those of the streams before it.
def lines (symbols : List (String × Word)) (known : List String) : List (List Instruction) → List Line
  | [] => []
  | code :: rest =>
    code.map (Line.of symbols (known ++ Image.labelsOf code))
      ++ lines symbols (known ++ Image.labelsOf code) rest

-- A symbol whose address is the number of a label stands for the label.
def Destination.redirect (labels : List String) : Destination → Destination
  | .label name => .label name
  | .address value => (Image.numbered labels value).elim (.address value) .label

def Line.redirect (labels : List String) : Line → Line
  | .call dest => .call (dest.redirect labels)
  | line => line

-- How many bytes there are in the first `k` parts.
def offset (parts : List (List UInt8)) (k : Nat) : Nat :=
  (parts.take k).flatten.length

@[simp]
theorem offset_zero {parts : List (List UInt8)} : offset parts 0 = 0 :=
  rfl

@[simp]
theorem offset_cons {part : List UInt8} {parts : List (List UInt8)} {k : Nat} :
    offset (part :: parts) (k + 1) = part.length + offset parts k := by
  simp [offset]

theorem offset_succ {part : List UInt8} {parts : List (List UInt8)} {k : Nat}
    (h : parts[k]? = some part) : offset parts (k + 1) = offset parts k + part.length := by
  rw [offset, List.take_add_one, h, List.flatten_append, List.length_append]
  simp [offset]

-- A call that `next` follows leads to `target`, in an image that has these bytes from `base` on.
def Decoded.LeadsTo (base : Word) (bytes : List UInt8) (next target : Word) : Decoded → Prop
  | .call distance => next + distance = target
  | .callThrough distance => ∃ slot, next + distance = base + BitVec.ofNat 64 slot ∧
      (bytes.drop slot).take 8 = Bytes.littleEndian 8 target.toNat
  | _ => False

-- The address that a destination stands for, where the label of line `k` is at `place k`.
def Destination.Is (code : List Line) (place : Nat → Word) (target : Word) : Destination → Prop
  | .label name => ∃ k, code[k]? = some (.label name) ∧ target = place k
  | .address value => target = value

-- The bytes of an image, cut into one part for each line.
structure Listing (base : Word) (bytes : List UInt8) (code : List Line) (parts : List (List UInt8)) :
    Prop where
  length : parts.length = code.length
  -- A label takes no place, so that it names the place of what follows.
  label : ∀ (k : Nat) name, code[k]? = some (.label name) → parts[k]? = some []
  unique : ∀ (j k : Nat) name, code[j]? = some (.label name) → code[k]? = some (.label name) → j = k
  byte : ∀ (k : Nat) value, code[k]? = some (.plain (.byte value)) → parts[k]? = some [value]
  plain : ∀ (k : Nat) i d, code[k]? = some (.plain i) → i.decoded? = some d →
    ∃ part, parts[k]? = some part ∧ Decodes part d
  call : ∀ (k : Nat) dest, code[k]? = some (.call dest) → ∃ part d target, parts[k]? = some part ∧
    Decodes part d ∧ d.LeadsTo base bytes (base + BitVec.ofNat 64 (offset parts (k + 1))) target ∧
    dest.Is code (fun k => base + BitVec.ofNat 64 (offset parts k)) target

def Destination.piece : Destination → Piece
  | .label name => .callLabel name
  | .address value => .callAddress value

-- The chunks that lines come to. A label waits for the next line, and no second one may come before.
inductive Lays : Option String → List Line → List Chunk → Option String → Prop
  | nil : Lays p [] [] p
  | label (rest : Lays (some name) code chunks q) : Lays none (.label name :: code) chunks q
  | plain (he : i.encoding = .ok bytes) (rest : Lays none code chunks q) :
    Lays p (.plain i :: code) (⟨p, .bytes bytes⟩ :: chunks) q
  | call (rest : Lays none code chunks q) : Lays p (.call dest :: code) (⟨p, dest.piece⟩ :: chunks) q

theorem Lays.append {p q r : Option String} {code more : List Line} {chunks others : List Chunk}
    (h : Lays p code chunks q) (h' : Lays q more others r) :
    Lays p (code ++ more) (chunks ++ others) r := by
  induction h
  case nil => exact h'
  case label ih => exact .label (ih h')
  case plain he _ ih => exact .plain he (ih h')
  case call ih => exact .call (ih h')

theorem Lays.exists_piece {p q : Option String} {code : List Line} {chunks : List Chunk} {dest : Destination}
    (h : Lays p code chunks q) (hd : .call dest ∈ code) : ∃ c ∈ chunks, c.piece = dest.piece := by
  induction h
  case nil => cases hd
  case label ih => exact ih (by simpa using hd)
  case plain ih =>
    obtain ⟨c, hc, he⟩ := ih (by simpa using hd)
    exact ⟨c, List.mem_cons_of_mem _ hc, he⟩
  case call ih =>
    rcases List.mem_cons.mp hd with hd | hd
    · cases hd
      exact ⟨_, List.mem_cons_self, rfl⟩
    · obtain ⟨c, hc, he⟩ := ih hd
      exact ⟨c, List.mem_cons_of_mem _ hc, he⟩

theorem Destination.piece_redirect {labels : List String} {dest : Destination} :
    (dest.redirect labels).piece = Image.redirect labels dest.piece := by
  cases dest
  case label => rfl
  case address value =>
    rw [Destination.redirect, Destination.piece, Image.redirect]
    cases Image.numbered labels value <;> rfl

theorem Lays.redirect {p q : Option String} {code : List Line} {chunks : List Chunk} {labels : List String}
    (h : Lays p code chunks q) : Lays p (code.map (Line.redirect labels))
      (chunks.map fun c => { c with piece := Image.redirect labels c.piece }) q := by
  induction h
  case nil => exact .nil
  case label ih => exact .label ih
  case plain he _ ih => exact .plain he ih
  case call ih =>
    rw [List.map_cons, List.map_cons, ← Destination.piece_redirect]
    exact .call ih

namespace Image

variable {i k : Image} {instruction : Instruction} {code : List Instruction} {known : List String}

-- The labels that matter for where calls go are the known ones.
structure Knows (i : Image) (known : List String) : Prop where
  labels : ∀ name ∈ known, name ∈ i.labels
  others : ∀ name ∈ i.labels, name ∈ known ∨ i.symbols.lookup name = none

theorem Knows.mention {name : String} (h : i.Knows known) (hn : name ∈ known ∨ i.symbols.lookup name = none) :
    (i.mention name).Knows known where
  labels other ho := mem_mention_labels.mpr (.inl (h.labels other ho))
  others other ho := by
    rw [mention_symbols]
    rcases mem_mention_labels.mp ho with ho | rfl
    · exact h.others other ho
    · exact hn

theorem Knows.add {piece : Piece} (h : i.Knows known) : (i.add piece).Knows known :=
  ⟨h.labels, h.others⟩

theorem Knows.label {name : String} (h : i.Knows known) (hn : name ∈ known) :
    (i.label name).Knows known :=
  ⟨(h.mention (.inl hn)).labels, (h.mention (.inl hn)).others⟩

-- A call goes where its name leads among the known labels.
theorem Knows.call (h : i.Knows known) (target : String) : ∃ k : Image, k.Knows known ∧
    (k = i ∨ k = i.mention target) ∧
    i.call target = k.add (Destination.of i.symbols known target).piece := by
  rw [Destination.of]
  split
  case isTrue hk =>
    rw [call_eq_label (.inl (h.labels target hk))]
    exact ⟨_, h.mention (.inl hk), .inr rfl, rfl⟩
  case isFalse hk =>
    cases hs : i.symbols.lookup target
    case none =>
      rw [call_eq_label (.inr hs)]
      exact ⟨_, h.mention (.inr hs), .inr rfl, rfl⟩
    case some value =>
      have hl : target ∉ i.labels := by
        intro hl
        have unknown := (h.others target hl).resolve_left hk
        rw [hs] at unknown
        cases unknown
      rw [call_eq_address hl hs]
      exact ⟨i, h, .inl rfl, rfl⟩

-- What a successful run adds to an image.
structure Grows (i : Image) (code : List Line) (k : Image) : Prop where
  base : k.base = i.base
  symbols : k.symbols = i.symbols
  lays : ∃ chunks, k.chunks = i.chunks ++ chunks ∧ Lays i.pending code chunks k.pending

theorem Grows.trans {l : Image} {first second : List Line} (h : i.Grows first k) (h' : k.Grows second l) :
    i.Grows (first ++ second) l := by
  obtain ⟨chunks, he, hl⟩ := h.lays
  obtain ⟨others, he', hl'⟩ := h'.lays
  refine ⟨h'.base.trans h.base, h'.symbols.trans h.symbols, chunks ++ others, ?_, hl.append hl'⟩
  rw [he', he, List.append_assoc]

theorem grows_add {piece : Piece} {line : Line} (h : Lays i.pending [line] [⟨i.pending, piece⟩] none) :
    i.Grows [line] (i.add piece) :=
  ⟨rfl, rfl, _, rfl, h⟩

theorem Knows.step (h : i.Knows known) (hc : ∀ name, instruction = .label name → name ∈ known)
    (hs : i.step instruction = .ok k) :
    k.Knows known ∧ i.Grows [Line.of i.symbols known instruction] k := by
  rcases step_cases hs with ⟨name, rfl, -, hp, rfl⟩ | ⟨target, rfl, rfl⟩ | ⟨bytes, plain, he, rfl⟩
  case inl =>
    refine ⟨h.label (hc name rfl), by simp [Image.label], by simp [Image.label], [], by simp [Image.label], ?_⟩
    rw [hp]
    exact .label .nil
  case inr.inl =>
    obtain ⟨k, hk, he, called⟩ := h.call target
    have pending : k.pending = i.pending := by rcases he with rfl | rfl <;> simp
    have chunks : k.chunks = i.chunks := by rcases he with rfl | rfl <;> simp
    rw [called]
    refine ⟨hk.add, ?_, ?_, _, by rw [Image.add, chunks, pending], .call .nil⟩
    · rcases he with rfl | rfl <;> simp [Image.add]
    · rcases he with rfl | rfl <;> simp [Image.add]
  case inr.inr =>
    refine ⟨h.add, grows_add ?_⟩
    have line : Line.of i.symbols known instruction = .plain instruction := by
      cases instruction
      case label => cases plain
      case call => cases plain
      all_goals rfl
    rw [line]
    exact .plain he .nil

theorem Knows.steps (h : i.Knows known) (hc : ∀ name, .label name ∈ code → name ∈ known)
    (hs : i.steps code = .ok k) :
    k.Knows known ∧ i.Grows (code.map (Line.of i.symbols known)) k := by
  induction code generalizing i
  case nil =>
    cases hs
    exact ⟨h, rfl, rfl, [], by simp, .nil⟩
  case cons instruction code ih =>
    rw [Image.steps] at hs
    cases hx : i.step instruction <;> rw [hx] at hs
    case error => cases hs
    case ok i' =>
      obtain ⟨h', grows⟩ := h.step (fun name he => hc name (he ▸ List.mem_cons_self)) hx
      obtain ⟨hk, rest⟩ := ih h' (fun name hn => hc name (List.mem_cons_of_mem _ hn)) hs
      rw [grows.symbols] at rest
      exact ⟨hk, grows.trans rest⟩

theorem Knows.mentionAll {names : List String} (h : i.Knows known) :
    (i.mentionAll names).Knows (known ++ names) where
  labels name hn := mem_mentionAll_labels.mpr ((List.mem_append.mp hn).imp_left (h.labels name))
  others name hn := by
    rw [List.mem_append, mentionAll_eq]
    rcases mem_mentionAll_labels.mp hn with hn | hn
    · exact (h.others name hn).imp_left .inl
    · exact .inl (.inr hn)

theorem grows_mentionAll {names : List String} : i.Grows [] (i.mentionAll names) := by
  rw [mentionAll_eq]
  exact ⟨rfl, rfl, [], by simp, .nil⟩

theorem placed_steps (h : i.steps code = .ok k) : k.placed = (labelsOf code).reverse ++ i.placed := by
  induction code generalizing i
  case nil =>
    cases h
    rfl
  case cons instruction code ih =>
    rw [Image.steps] at h
    cases hx : i.step instruction <;> rw [hx] at h
    case error => cases h
    case ok i' =>
      rw [ih h]
      rcases step_cases hx with ⟨name, rfl, -, -, rfl⟩ | ⟨target, rfl, rfl⟩ | ⟨bytes, plain, -, rfl⟩
      case inl => simp [labelsOf, Image.label]
      case inr.inl =>
        have placed : (i.call target).placed = i.placed := by
          unfold Image.call
          split <;> simp [Image.add]
        rw [placed]
        rfl
      case inr.inr =>
        cases instruction
        case label => cases plain
        all_goals rfl

-- The image in which the streams end.
theorem exists_of_link {streams : List (List Instruction)} {bytes : List UInt8}
    (h : i.link streams = .ok bytes) (tidy : i.Tidy) (knows : i.Knows known) :
    ∃ k : Image, k.finalize = .ok bytes ∧ k.Tidy ∧ i.Grows (lines i.symbols known streams) k ∧
      k.placed = (labelsOf streams.flatten).reverse ++ i.placed := by
  induction streams generalizing i known
  case nil => exact ⟨i, h, tidy, ⟨rfl, rfl, [], by simp, .nil⟩, rfl⟩
  case cons code streams ih =>
    rw [link_cons] at h
    cases hs : (i.mentionAll (labelsOf code)).steps code <;> rw [hs] at h
    case error => cases h
    case ok k =>
      have known_labels (name : String) (hn : .label name ∈ code) : name ∈ known ++ labelsOf code :=
        List.mem_append_right _ (mem_labelsOf_iff.mpr hn)
      obtain ⟨hk, grows⟩ := (knows.mentionAll).steps known_labels hs
      have grows := grows_mentionAll.trans grows
      obtain ⟨l, finalize, tidy, rest, placed⟩ := ih h (tidy.mentionAll.steps hs) hk
      refine ⟨l, finalize, tidy, ?grows, ?placed⟩
      case grows =>
        have symbols : (i.mentionAll (labelsOf code)).symbols = i.symbols := by rw [mentionAll_eq]
        rw [grows.symbols] at rest
        rw [symbols] at grows
        exact grows.trans rest
      case placed =>
        have start : (i.mentionAll (labelsOf code)).placed = i.placed := by rw [mentionAll_eq]
        rw [placed, placed_steps hs, start]
        simp [labelsOf]

end Image

-- The address of a destination when labels have these addresses.
def Destination.value (address : String → Word) : Destination → Word
  | .label name => address name
  | .address value => value

-- The parts that lines come to from `ip` on, and the targets of those calls that go through a
-- pointer. The pointers begin at `pointer`.
inductive Written (address : String → Word) :
    (ip pointer : Word) → List Line → List (List UInt8) → (far : List Word) → Prop
  | nil : Written address ip pointer [] [] []
  | label (rest : Written address ip pointer code parts far) :
    Written address ip pointer (.label name :: code) ([] :: parts) far
  | plain (he : i.encoding = .ok part)
    (rest : Written address (ip + BitVec.ofNat 64 part.length) pointer code parts far) :
    Written address ip pointer (.plain i :: code) (part :: parts) far
  | near {dest : Destination} {distance : List UInt8}
    (hn : ∀ value, dest = .address value → Image.isNear ip value = true)
    (hd : Image.displacement (ip + 5) (dest.value address) = .ok distance)
    (rest : Written address (ip + 5) pointer code parts far) :
    Written address ip pointer (.call dest :: code) ((0xE8 :: distance) :: parts) far
  | far {value : Word} {distance : List UInt8} (hn : Image.isNear ip value = false)
    (hd : Image.displacement (ip + 6) pointer = .ok distance)
    (rest : Written address (ip + 6) (pointer + 8) code parts far) :
    Written address ip pointer (.call (.address value) :: code) ((0xFF :: 0x15 :: distance) :: parts)
      (value :: far)

namespace Image

variable {address : String → Word} {ip pointer : Word} {c : Chunk} {rest : List (Word × Chunk)}
variable {bytes : List UInt8} {code : List Line} {chunks : List Chunk} {p q : Option String}

theorem length_displacement {next target : Word} (h : displacement next target = .ok bytes) :
    bytes.length = 4 := by
  rw [displacement] at h
  split at h <;> cases h
  exact Bytes.length_littleEndian ..

theorem write_cons (h : write address pointer ((ip, c) :: rest) = .ok bytes) :
    ∃ part tail, pieceBytes address ip pointer c.piece = .ok part ∧
      write address (nextPointer ip pointer c.piece) rest = .ok tail ∧ bytes = part ++ tail := by
  rw [write] at h
  cases hp : pieceBytes address ip pointer c.piece <;> rw [hp] at h
  case error => cases h
  case ok part =>
    cases hw : write address (nextPointer ip pointer c.piece) rest <;>
      simp only [bind, Except.bind, hw] at h <;> cases h
    case ok tail =>
      exact ⟨part, tail, rfl, rfl, rfl⟩

theorem add_ofNat (ip : Word) (a b : Nat) :
    ip + BitVec.ofNat 64 a + BitVec.ofNat 64 b = ip + BitVec.ofNat 64 (a + b) := by
  rw [BitVec.add_assoc, ← BitVec.ofNat_add]

-- The end behind a part and what follows it.
theorem stop_append {stop : Word} {part tail : List UInt8} {size : Nat} (hs : part.length = size)
    (h : stop = ip + BitVec.ofNat 64 size + BitVec.ofNat 64 tail.length) :
    stop = ip + BitVec.ofNat 64 (part ++ tail).length := by
  rw [h, add_ofNat, List.length_append, hs]

theorem exists_written (hl : Lays p code chunks q)
    (hw : write address pointer (place ip chunks) = .ok bytes) :
    ∃ parts, bytes = parts.flatten ∧ endAddress ip chunks = ip + BitVec.ofNat 64 bytes.length ∧
      Written address ip pointer code parts (farTargets (place ip chunks)) := by
  induction hl generalizing ip pointer bytes
  case nil =>
    cases hw
    exact ⟨[], rfl, by simp [endAddress], .nil⟩
  case label ih =>
    obtain ⟨parts, he, stop, written⟩ := ih hw
    exact ⟨[] :: parts, he, stop, .label written⟩
  case plain he _ ih =>
    obtain ⟨part, tail, hp, ht, rfl⟩ := write_cons hw
    cases hp
    obtain ⟨parts, rfl, stop, written⟩ := ih ht
    exact ⟨_ :: parts, rfl, stop_append rfl stop, .plain he written⟩
  case call dest _ ih =>
    obtain ⟨part, tail, hp, ht, rfl⟩ := write_cons hw
    cases dest
    case label name =>
      simp only [Destination.piece, pieceBytes] at hp
      cases hd : displacement (ip + 5) (address name) <;> rw [hd] at hp <;> cases hp
      obtain ⟨parts, rfl, stop, written⟩ := ih ht
      refine ⟨_ :: parts, rfl, stop_append ?_ stop, .near (by simp) hd written⟩
      rw [List.length_cons, length_displacement hd]
      rfl
    case address value =>
      simp only [Destination.piece, pieceBytes] at hp
      split at hp
      case isTrue hn =>
        cases hd : displacement (ip + 5) value <;> rw [hd] at hp <;> cases hp
        have next : nextPointer ip pointer (.callAddress value) = pointer := if_pos hn
        have size : pieceSize ip (.callAddress value) = 5 := if_pos hn
        simp only [Destination.piece, next, size] at ht
        obtain ⟨parts, rfl, stop, written⟩ := ih ht
        simp only [Destination.piece, endAddress, place, farTargets, List.filterMap_cons, size, hn,
          ↓reduceIte]
        refine ⟨_ :: parts, rfl, stop_append ?_ stop, .near (by simpa using hn) hd written⟩
        rw [List.length_cons, length_displacement hd]
      case isFalse hn =>
        cases hd : displacement (ip + 6) pointer <;> rw [hd] at hp <;> cases hp
        have next : nextPointer ip pointer (.callAddress value) = pointer + 8 := if_neg hn
        have size : pieceSize ip (.callAddress value) = 6 := if_neg hn
        simp only [Destination.piece, next, size] at ht
        obtain ⟨parts, rfl, stop, written⟩ := ih ht
        simp only [Destination.piece, endAddress, place, farTargets, List.filterMap_cons, size, hn]
        refine ⟨_ :: parts, rfl, stop_append ?_ stop, .far (by simpa using hn) hd written⟩
        rw [List.length_cons, List.length_cons, length_displacement hd]

-- A label that waits gets the next chunk.
theorem exists_chunk {name : String} (hl : Lays (some name) code chunks none) :
    ∃ piece rest, chunks = ⟨some name, piece⟩ :: rest := by
  cases hl
  case plain => exact ⟨_, _, rfl⟩
  case call => exact ⟨_, _, rfl⟩

theorem addressOf_cons {name : String} (h : c.label ≠ some name) :
    addressOf ((ip, c) :: rest) name = addressOf rest name := by
  simp [addressOf, h]

-- The chunk behind the line of a label stands where the parts before the line end.
theorem addressOf_eq {name : String} {k : Nat} {parts : List (List UInt8)} {far : List Word}
    (hl : Lays p code chunks q) (hq : q = none) (hw : Written address ip pointer code parts far)
    (hp : p ≠ some name) (hk : code[k]? = some (.label name))
    (first : ∀ j < k, code[j]? ≠ some (.label name)) :
    addressOf (place ip chunks) name = ip + BitVec.ofNat 64 (offset parts k) := by
  induction hl generalizing ip pointer parts far k
  case nil => simp at hk
  case label other code chunks q rest ih =>
    cases hw
    case label hw =>
    cases k
    case zero =>
      cases hk
      obtain ⟨piece, tail, rfl⟩ := exists_chunk (hq ▸ rest)
      simp [place, addressOf]
    case succ k =>
      have ne : some other ≠ some name := by
        intro he
        cases he
        exact first 0 (by omega) rfl
      rw [offset_cons, ih hq hw ne hk fun j hj => first (j + 1) (by omega)]
      simp
  case plain he _ ih =>
    cases hw
    case plain he' hw =>
    cases he.symm.trans he'
    cases k
    case zero => cases hk
    case succ k =>
      rw [place, addressOf_cons hp, offset_cons, ← add_ofNat]
      exact ih hq hw (by simp) hk fun j hj => first (j + 1) (by omega)
  case call dest _ ih =>
    cases k
    case zero => cases hk
    case succ k =>
      rw [place, addressOf_cons hp]
      cases hw
      case near hn hd hw =>
        have size : pieceSize ip dest.piece = 5 := by
          cases dest
          case label => rfl
          case address value => exact if_pos (hn value rfl)
        rw [size, offset_cons, List.length_cons, length_displacement hd, ← add_ofNat]
        exact ih hq hw (by simp) hk fun j hj => first (j + 1) (by omega)
      case far value _ hn hd hw =>
        have size : pieceSize ip (Destination.address value).piece = 6 := if_neg (by simp [hn])
        rw [size, offset_cons, List.length_cons, List.length_cons, length_displacement hd, ← add_ofNat]
        exact ih hq hw (by simp) hk fun j hj => first (j + 1) (by omega)

end Image

namespace Written

variable {address : String → Word} {ip pointer : Word} {code : List Line} {parts : List (List UInt8)}
variable {far : List Word} {k : Nat}

theorem length_eq (h : Written address ip pointer code parts far) : parts.length = code.length := by
  induction h
  case nil => rfl
  case label ih => rw [List.length_cons, List.length_cons, ih]
  case plain ih => rw [List.length_cons, List.length_cons, ih]
  case near ih => rw [List.length_cons, List.length_cons, ih]
  case far ih => rw [List.length_cons, List.length_cons, ih]

-- What is written from a line on.
theorem drop (h : Written address ip pointer code parts far) (k : Nat) :
    ∃ m, Written address (ip + BitVec.ofNat 64 (offset parts k)) (pointer + BitVec.ofNat 64 (8 * m))
      (code.drop k) (parts.drop k) (far.drop m) := by
  induction h generalizing k
  case nil => exact ⟨0, by simpa [offset] using .nil⟩
  case label rest ih =>
    cases k
    case zero => exact ⟨0, by simpa using .label rest⟩
    case succ k =>
      obtain ⟨m, h⟩ := ih k
      exact ⟨m, by simpa using h⟩
  case plain he rest ih =>
    cases k
    case zero => exact ⟨0, by simpa using .plain he rest⟩
    case succ k =>
      obtain ⟨m, h⟩ := ih k
      rw [Image.add_ofNat] at h
      exact ⟨m, by simpa using h⟩
  case near hn hd rest ih =>
    cases k
    case zero => exact ⟨0, by simpa using .near hn hd rest⟩
    case succ k =>
      obtain ⟨m, h⟩ := ih k
      refine ⟨m, ?_⟩
      rw [offset_cons, List.length_cons, Image.length_displacement hd, ← Image.add_ofNat]
      exact h
  case far distance hn hd rest ih =>
    cases k
    case zero => exact ⟨0, by simpa using .far hn hd rest⟩
    case succ k =>
      obtain ⟨m, h⟩ := ih k
      refine ⟨m + 1, ?_⟩
      have slot : 8 * (m + 1) = 8 + 8 * m := by omega
      have size : (0xFF :: 0x15 :: distance).length = 6 := by simp [Image.length_displacement hd]
      rw [offset_cons, size, slot, ← Image.add_ofNat, ← Image.add_ofNat]
      exact h

-- What is written for one line, where `m` pointers are taken before.
theorem exists_part {line : Line} (h : Written address ip pointer code parts far)
    (hk : code[k]? = some line) : ∃ m part rest parts' far', parts[k]? = some part ∧
      far.drop m = far' ∧
      Written address (ip + BitVec.ofNat 64 (offset parts k)) (pointer + BitVec.ofNat 64 (8 * m))
        (line :: rest) (part :: parts') far' := by
  obtain ⟨m, h'⟩ := h.drop k
  obtain ⟨hlt, rfl⟩ := List.getElem?_eq_some_iff.mp hk
  have hlt' : k < parts.length := h.length_eq ▸ hlt
  rw [List.drop_eq_getElem_cons hlt, List.drop_eq_getElem_cons hlt'] at h'
  exact ⟨m, _, _, _, _, List.getElem?_eq_getElem hlt', rfl, h'⟩

end Written

section Labels

variable {symbols : List (String × Word)} {known : List String} {streams : List (List Instruction)}
variable {name : String}

theorem Line.of_eq_label_iff {i : Instruction} : Line.of symbols known i = .label name ↔ i = .label name := by
  cases i <;> simp [Line.of]

-- The labels are in the same places as in the streams.
theorem lines_eq_label_iff {k : Nat} :
    (lines symbols known streams)[k]? = some (.label name) ↔ streams.flatten[k]? = some (.label name) := by
  induction streams generalizing known k
  case nil => simp [lines]
  case cons code streams ih =>
    rw [lines, List.flatten_cons]
    by_cases hk : k < code.length
    case pos =>
      rw [List.getElem?_append_left (by simpa using hk), List.getElem?_append_left hk,
        List.getElem?_map, Option.map_eq_some_iff]
      simp only [Line.of_eq_label_iff, exists_eq_right]
    case neg =>
      rw [List.getElem?_append_right (by simpa using hk), List.getElem?_append_right (by omega),
        List.length_map]
      exact ih

theorem unique_of_nodup {code : List Instruction} {j k : Nat} (h : (Image.labelsOf code).Nodup)
    (hj : code[j]? = some (.label name)) (hk : code[k]? = some (.label name)) : j = k := by
  rw [Image.labelsOf, List.Nodup, List.pairwise_filterMap, List.pairwise_iff_getElem] at h
  obtain ⟨hj, ej⟩ := List.getElem?_eq_some_iff.mp hj
  obtain ⟨hk, ek⟩ := List.getElem?_eq_some_iff.mp hk
  rcases Nat.lt_trichotomy j k with lt | eq | gt
  · exact absurd rfl (h j k hj hk lt name (by rw [ej]) name (by rw [ek]))
  · exact eq
  · exact absurd rfl (h k j hk hj gt name (by rw [ek]) name (by rw [ej]))

end Labels

namespace Image

variable {i : Image} {bytes : List UInt8}

theorem finalize_eq_ok (h : i.finalize = .ok bytes) :
    i.unresolved = [] ∧ i.pending = none ∧ i.bytes = .ok bytes := by
  rw [finalize] at h
  split at h
  case h_1 => cases h
  case h_2 hu =>
    split at h
    case isTrue => cases h
    case isFalse hp => exact ⟨hu, by simpa using hp, h⟩

theorem Tidy.labels_perm (ht : i.Tidy) (hu : i.unresolved = []) : i.labels.Perm i.placed :=
  (List.perm_ext_iff_of_nodup ht.nodup ht.placed).mpr fun name =>
    ⟨unresolved_eq_nil_iff.mp hu name, ht.known name⟩

theorem Tidy.mem_of_redirect {c : Chunk} {name : String} (ht : i.Tidy) (hc : c ∈ i.chunks)
    (hr : redirect i.labels c.piece = .callLabel name) : name ∈ i.labels := by
  cases hp : c.piece <;> rw [hp] at hr
  case bytes => cases hr
  case callLabel =>
    cases hr
    exact ht.mentioned c hc name hp
  case callAddress value =>
    rw [redirect] at hr
    cases hv : numbered i.labels value <;> rw [hv] at hr <;> cases hr
    exact mem_of_numbered hv

-- The bytes of a tidy image, in which every label names a chunk.
theorem Tidy.bytes_eq_ok {chunks : List Chunk} (ht : i.Tidy) (hu : i.unresolved = [])
    (hp : i.pending = none) (h : i.bytes = .ok bytes)
    (hc : chunks = i.chunks.map fun c => { c with piece := redirect i.labels c.piece }) :
    ∃ code, write (addressOf (place i.base chunks))
        (endAddress i.base chunks + BitVec.ofNat 64 (padding (endAddress i.base chunks)))
        (place i.base chunks) = .ok code ∧
      bytes = code ++ pointers (endAddress i.base chunks) (farTargets (place i.base chunks)) := by
  rw [Image.bytes, ht.map_resolve hu hp, ← hc] at h
  cases hw : write (addressOf (place i.base chunks))
    (endAddress i.base chunks + BitVec.ofNat 64 (padding (endAddress i.base chunks)))
    (place i.base chunks) <;> simp only [hw, bind, Except.bind] at h <;> cases h
  exact ⟨_, rfl, rfl⟩

theorem take_words {target : Word} {far : List Word} {m : Nat} (h : far[m]? = some target) :
    ((far.flatMap fun t => Bytes.littleEndian 8 t.toNat).drop (8 * m)).take 8 =
      Bytes.littleEndian 8 target.toNat := by
  induction far generalizing m
  case nil => simp at h
  case cons first far ih =>
    rw [List.flatMap_cons]
    cases m
    case zero =>
      cases h
      rw [Nat.mul_zero, List.drop_zero, List.take_left' (Bytes.length_littleEndian ..)]
    case succ m =>
      have skip : 8 * (m + 1) = (Bytes.littleEndian 8 first.toNat).length + 8 * m := by
        rw [Bytes.length_littleEndian]
        omega
      rw [skip, List.drop_append, List.drop_eq_nil_of_le (by omega), List.nil_append,
        Nat.add_sub_cancel_left]
      exact ih h

-- The pointer in a place holds its target.
theorem take_pointers {stop target : Word} {far : List Word} {m : Nat} (h : far[m]? = some target) :
    ((pointers stop far).drop (padding stop + 8 * m)).take 8 = Bytes.littleEndian 8 target.toNat := by
  have some : pointers stop far =
      List.replicate (padding stop) 0xCC ++ far.flatMap fun t => Bytes.littleEndian 8 t.toNat := by
    cases far
    case nil => simp at h
    case cons => rfl
  rw [some, List.drop_append, List.drop_eq_nil_of_le (by simp), List.nil_append, List.length_replicate,
    Nat.add_sub_cancel_left]
  exact take_words h

end Image

namespace Written

variable {address : String → Word} {ip pointer : Word} {code : List Line} {parts : List (List UInt8)}
variable {far : List Word}

theorem far_sublist (h : Written address ip pointer code parts far) :
    far.Sublist (code.filterMap Line.address?) := by
  induction h
  case nil => exact .slnil
  case label ih => exact ih
  case plain ih => exact ih
  case near dest _ _ _ _ ih =>
    cases dest
    case label => exact ih
    case address => exact ih.cons _
  case far ih => exact ih.cons_cons _

theorem add_sub_self (next target : Word) : next + (target - next) = target := by
  rw [BitVec.add_comm, BitVec.sub_add_cancel]

-- Parts that are written from `base` on are a listing, if labels have the addresses of their lines
-- and the pointers stand behind the parts.
theorem listing {base stop : Word} {bytes : List UInt8}
    (h : Written address base (stop + BitVec.ofNat 64 (Image.padding stop)) code parts far)
    (hs : stop = base + BitVec.ofNat 64 parts.flatten.length)
    (hb : bytes = parts.flatten ++ Image.pointers stop far)
    (unique : ∀ (j k : Nat) name, code[j]? = some (.label name) → code[k]? = some (.label name) → j = k)
    (labels : ∀ (k : Nat) name, code[k]? = some (.call (.label name)) →
      ∃ j : Nat, code[j]? = some (.label name) ∧ address name = base + BitVec.ofNat 64 (offset parts j)) :
    Listing base bytes code parts where
  length := h.length_eq
  label k name hk := by
    obtain ⟨m, part, rest, parts', far', hp, hf, h'⟩ := h.exists_part hk
    cases h'
    exact hp
  unique := unique
  byte k value hk := by
    obtain ⟨m, part, rest, parts', far', hp, hf, h'⟩ := h.exists_part hk
    cases h'
    case plain he _ =>
      cases he
      exact hp
  plain k i d hk hd := by
    obtain ⟨m, part, rest, parts', far', hp, hf, h'⟩ := h.exists_part hk
    cases h'
    case plain he _ => exact ⟨part, hp, Instruction.decodes_encoding he hd⟩
  call k dest hk := by
    obtain ⟨m, part, rest, parts', far', hp, hf, h'⟩ := h.exists_part hk
    rw [offset_succ hp, ← Image.add_ofNat]
    cases h'
    case near distance hn hd _ =>
      have size : (0xE8 :: distance).length = 5 := by simp [Image.length_displacement hd]
      rw [size]
      refine ⟨_, _, dest.value address, hp, Decoding.decodes_call hd, ?leads, ?is⟩
      case leads => exact add_sub_self _ _
      case is =>
        cases dest
        case label name => exact labels k name hk
        case address => rfl
    case far value distance hn hd _ =>
      have size : (0xFF :: 0x15 :: distance).length = 6 := by simp [Image.length_displacement hd]
      have target : far[m]? = some value := by
        rw [← List.head?_drop, hf]
        rfl
      rw [size]
      refine ⟨_, _, value, hp, Decoding.decodes_callThrough hd, ?leads, rfl⟩
      refine ⟨parts.flatten.length + (Image.padding stop + 8 * m), ?slot, ?word⟩
      case slot =>
        rw [← Image.add_ofNat, ← hs, ← Image.add_ofNat]
        exact add_sub_self _ _
      case word =>
        rw [hb, List.drop_append, List.drop_eq_nil_of_le (by omega), List.nil_append,
          Nat.add_sub_cancel_left]
        exact Image.take_pointers target

end Written

section Redirection

variable {symbols : List (String × Word)} {known labels : List String} {streams : List (List Instruction)}

theorem Line.redirect_eq_label_iff {line : Line} {name : String} :
    line.redirect labels = .label name ↔ line = .label name := by
  cases line <;> simp [Line.redirect]

theorem redirected_eq_label_iff {k : Nat} {name : String} :
    ((lines symbols known streams).map (Line.redirect labels))[k]? = some (.label name) ↔
      streams.flatten[k]? = some (.label name) := by
  rw [List.getElem?_map, Option.map_eq_some_iff]
  simp only [Line.redirect_eq_label_iff, exists_eq_right]
  exact lines_eq_label_iff

-- A line that calls an address calls a symbol.
theorem exists_call_of_mem_lines {value : Word} (h : .call (.address value) ∈ lines symbols known streams) :
    ∃ target, .call target ∈ streams.flatten ∧ symbols.lookup target = some value := by
  induction streams generalizing known
  case nil => cases h
  case cons code streams ih =>
    rw [lines, List.mem_append] at h
    rcases h with h | h
    · obtain ⟨instruction, hi, he⟩ := List.mem_map.mp h
      cases instruction <;> simp only [Line.of, Line.call.injEq, reduceCtorEq] at he
      case call target =>
        rw [Destination.of] at he
        split at he
        case isTrue => cases he
        case isFalse =>
          cases hs : symbols.lookup target <;> rw [hs] at he <;> cases he
          exact ⟨target, List.mem_append_left _ hi, hs⟩
    · obtain ⟨target, ht, hs⟩ := ih h
      exact ⟨target, List.mem_append_right _ ht, hs⟩

-- Symbols beyond the numbers of labels stand for themselves.
theorem map_redirect_lines (h : ∀ target value, .call target ∈ streams.flatten →
      symbols.lookup target = some value → labels.length < value.toNat) :
    (lines symbols known streams).map (Line.redirect labels) = lines symbols known streams := by
  refine (List.map_congr_left fun line hl => ?_).trans (List.map_id _)
  cases line
  case call dest =>
    cases dest
    case label => rfl
    case address value =>
      obtain ⟨target, ht, hs⟩ := exists_call_of_mem_lines hl
      simp [Line.redirect, Destination.redirect, Image.numbered_eq_none (h target value ht hs)]
  all_goals rfl

end Redirection

-- The labels of finished code are those of the streams, numbered in some order.
theorem Image.exists_listing {base : Word} {symbols : List (String × Word)}
    {streams : List (List Instruction)} {bytes : List UInt8}
    (h : ({ base, symbols } : Image).link streams = .ok bytes) :
    ∃ labels parts far, labels.Perm (labelsOf streams.flatten) ∧
      bytes = parts.flatten ++ pointers (base + BitVec.ofNat 64 parts.flatten.length) far ∧
      far.Sublist (((lines symbols [] streams).map (Line.redirect labels)).filterMap Line.address?) ∧
      Listing base bytes ((lines symbols [] streams).map (Line.redirect labels)) parts := by
  have knows : ({ base, symbols } : Image).Knows [] := ⟨by simp, by simp⟩
  obtain ⟨i, finished, tidy, grows, placed⟩ := exists_of_link h tidy_blank knows
  rw [List.append_nil] at placed
  obtain ⟨resolved, pending, hb⟩ := finalize_eq_ok finished
  obtain ⟨chunks, he, lays⟩ := grows.lays
  rw [pending] at lays
  rw [List.nil_append] at he
  obtain ⟨code, written, rfl⟩ := tidy.bytes_eq_ok resolved pending hb (by rw [he])
  rw [grows.base] at written ⊢
  have lays' : Lays none ((lines symbols [] streams).map (Line.redirect i.labels)) _ none :=
    lays.redirect
  obtain ⟨parts, rfl, stop, written⟩ := exists_written lays' written
  have nodup : (labelsOf streams.flatten).Nodup := by
    have := tidy.placed
    rw [placed] at this
    exact List.nodup_reverse.mp this
  have perm : i.labels.Perm (labelsOf streams.flatten) :=
    (tidy.labels_perm resolved).trans (placed ▸ List.reverse_perm _)
  have unique (j k : Nat) (name : String)
      (hj : ((lines symbols [] streams).map (Line.redirect i.labels))[j]? = some (.label name))
      (hk : ((lines symbols [] streams).map (Line.redirect i.labels))[k]? = some (.label name)) : j = k :=
    unique_of_nodup nodup (redirected_eq_label_iff.mp hj) (redirected_eq_label_iff.mp hk)
  refine ⟨i.labels, parts, _, perm, by rw [stop], written.far_sublist, ?_⟩
  refine written.listing stop rfl unique fun k name hk => ?_
  obtain ⟨_, mem, piece⟩ := lays'.exists_piece (List.mem_of_getElem? hk)
  obtain ⟨c, hc, rfl⟩ := List.mem_map.mp mem
  have known : name ∈ i.labels := tidy.mem_of_redirect (he ▸ hc) piece
  obtain ⟨j, hj⟩ := List.mem_iff_getElem?.mp (mem_labelsOf_iff.mp (perm.mem_iff.mp known))
  have hj : ((lines symbols [] streams).map (Line.redirect i.labels))[j]? = some (.label name) :=
    redirected_eq_label_iff.mpr hj
  refine ⟨j, hj, addressOf_eq lays' rfl written (by simp) hj fun l hl hx => ?_⟩
  exact Nat.ne_of_lt hl (unique l j name hx hj)

-- Finished code is a list of parts, one for each instruction, with pointers behind them. Each part is
-- read as the instruction it was written for, and each call leads to the label or to the symbol of
-- its name. Only a symbol whose address is the number of a label is taken for the label.
theorem link_listing (base : Word) (symbols : List (String × Word)) (streams : List (List Instruction))
    (bytes : List UInt8) (h : ({ base, symbols } : Image).link streams = .ok bytes) :
    ∃ labels parts far, labels.Perm (Image.labelsOf streams.flatten) ∧
      bytes = parts.flatten ++ Image.pointers (base + BitVec.ofNat 64 parts.flatten.length) far ∧
      far.Sublist (((lines symbols [] streams).map (Line.redirect labels)).filterMap Line.address?) ∧
      Listing base bytes ((lines symbols [] streams).map (Line.redirect labels)) parts ∧
      ((∀ target value, .call target ∈ streams.flatten → symbols.lookup target = some value →
          (Image.labelsOf streams.flatten).length < value.toNat) →
        (lines symbols [] streams).map (Line.redirect labels) = lines symbols [] streams) := by
  obtain ⟨labels, parts, far, perm, hb, hf, listing⟩ := Image.exists_listing h
  refine ⟨labels, parts, far, perm, hb, hf, listing, fun above => map_redirect_lines ?_⟩
  rwa [perm.length_eq]

-- Calls forwards and backwards, to a near symbol and to a far one.
theorem link_listing_far :
    let symbols : List (String × Word) := [("puts", 0x2000), ("far", 0x7F0000000000)]
    let streams : List (List Instruction) :=
      [[.label "main", .push .r12, .subImm .rsp 300, .call "helper", .call "puts", .call "far", .ret],
        [.label "helper", .move (.xmm 9) (.xmm 1), .call "main", .byte 0x2A]]
    let bytes : List UInt8 :=
      [0x41, 0x54, 0x48, 0x81, 0xEC, 0x2C, 0x01, 0, 0, 0xE8, 0x0C, 0, 0, 0, 0xE8, 0xED, 0x0F, 0, 0,
        0xFF, 0x15, 0x0F, 0, 0, 0, 0xC3, 0x44, 0x0F, 0x28, 0xC9, 0xE8, 0xDD, 0xFF, 0xFF, 0xFF, 0x2A,
        0xCC, 0xCC, 0xCC, 0xCC, 0, 0, 0, 0, 0, 0x7F, 0, 0]
    ({ base := 0x1000, symbols } : Image).link streams = .ok bytes ∧
    ∃ parts far, bytes = parts.flatten ++ Image.pointers (0x1000 + BitVec.ofNat 64 parts.flatten.length) far ∧
      far.Sublist ((lines symbols [] streams).filterMap Line.address?) ∧
      Listing 0x1000 bytes (lines symbols [] streams) parts := by
  intro symbols streams bytes
  have linked : ({ base := 0x1000, symbols } : Image).link streams = .ok bytes := by decide +kernel
  obtain ⟨labels, parts, far, -, hb, hf, listing, same⟩ :=
    link_listing 0x1000 symbols streams bytes linked
  have above (target : String) (value : Word) (ht : .call target ∈ streams.flatten)
      (hs : symbols.lookup target = some value) :
      (Image.labelsOf streams.flatten).length < value.toNat := by
    have : target = "helper" ∨ target = "puts" ∨ target = "far" ∨ target = "main" := by
      simpa [streams] using ht
    rcases this with rfl | rfl | rfl | rfl <;> cases hs <;> decide
  rw [same above] at hf listing
  exact ⟨linked, parts, far, hb, hf, listing⟩

end StackCompiler.Machine
