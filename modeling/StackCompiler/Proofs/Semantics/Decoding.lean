import Mathlib.Tactic.IntervalCases
import StackCompiler.Proofs.Machine.Emission
import StackCompiler.Proofs.Semantics.Machine

-- How the machine reads code: the 64-bit forms of the instructions that functions are made of, by
-- their prefixes, opcodes and operand bytes.

namespace StackCompiler.Machine

-- What an instruction says once it is read. Immediates and distances are extended to 64 bits.
inductive Decoded where
  | push (register : Register)
  | pop (register : Register)
  | sub (register : Register) (value : Word)
  | add (register : Register) (value : Word)
  | move (dst src : Register)
  | ret
  -- A call to a place at a distance from the next instruction.
  | call (distance : Word)
  -- A call to the address that stands at a distance from the next instruction.
  | callThrough (distance : Word)
deriving DecidableEq, Repr

namespace Decoding

-- What is read, and the bytes that are left.
abbrev Reader (α : Type) := List UInt8 → Option (α × List UInt8)

-- The extension byte `0100wrxb`. It widens the operands and gives the registers their top bits.
structure Extension where
  wide : Bool := false
  reg : Nat := 0
  rm : Nat := 0
deriving DecidableEq, Repr

def extension? (b : UInt8) : Option Extension :=
  if b.toNat / 16 = 4 then
    some ⟨b.toNat / 8 % 2 == 1, b.toNat / 4 % 2 * 8, b.toNat % 2 * 8⟩
  else
    none

-- The operand byte of a form with two registers, or with a register and the number of an operation.
structure Operands where
  reg : Nat
  rm : Nat
deriving DecidableEq, Repr

def operands : Reader Operands
  | b :: rest => if b.toNat / 64 = 3 then some (⟨b.toNat / 8 % 8, b.toNat % 8⟩, rest) else none
  | [] => none

-- A signed number of `count` bytes.
def signed (count : Nat) : Reader Word := fun bytes =>
  if bytes.length < count then none
  else
    let value := BitVec.ofNat (8 * count) (Bytes.toNat (bytes.take count))
    some (value.signExtend 64, bytes.drop count)

def general (number : Nat) : Register :=
  ⟨Register.generalBank, number⟩

def vector (number : Nat) : Register :=
  ⟨Register.vectorBank, number⟩

-- The operations of the immediate group.
def operation? (number : Nat) (r : Register) (value : Word) : Option Decoded :=
  if number = 0 then some (.add r value)
  else if number = 5 then some (.sub r value)
  else none

-- An immediate of `count` bytes for a register.
def immediate (x : Extension) (count : Nat) : Reader Decoded := fun bytes => do
  let (o, bytes) ← operands bytes
  let (value, bytes) ← signed count bytes
  return (← operation? o.reg (general (x.rm + o.rm)) value, bytes)

-- The forms that need wide operands.
def wideForm (x : Extension) (opcode : UInt8) : Reader Decoded := fun bytes => do
  if opcode = 0x89 then
    let (o, bytes) ← operands bytes
    return (.move (general (x.rm + o.rm)) (general (x.reg + o.reg)), bytes)
  else if opcode = 0x83 then
    immediate x 1 bytes
  else if opcode = 0x81 then
    immediate x 4 bytes
  else if opcode = 0x05 then
    let (value, bytes) ← signed 4 bytes
    return (.add .rax value, bytes)
  else if opcode = 0x2D then
    let (value, bytes) ← signed 4 bytes
    return (.sub .rax value, bytes)
  else
    none

-- An aligned move between vector registers.
def vectorForm (x : Extension) : Reader Decoded
  | 0x28 :: bytes => do
    let (o, bytes) ← operands bytes
    return (.move (vector (x.reg + o.reg)) (vector (x.rm + o.rm)), bytes)
  | _ => none

-- A call through a pointer that is found relative to the next instruction.
def indirectForm : Reader Decoded
  | 0x15 :: bytes => do
    let (distance, bytes) ← signed 4 bytes
    return (.callThrough distance, bytes)
  | _ => none

def form (x : Extension) : Reader Decoded
  | [] => none
  | opcode :: bytes =>
    if opcode.toNat / 8 = 0x50 / 8 then
      some (.push (general (x.rm + opcode.toNat % 8)), bytes)
    else if opcode.toNat / 8 = 0x58 / 8 then
      some (.pop (general (x.rm + opcode.toNat % 8)), bytes)
    else if opcode = 0xC3 then
      some (.ret, bytes)
    else if opcode = 0xE8 then do
      let (distance, bytes) ← signed 4 bytes
      return (.call distance, bytes)
    else if opcode = 0xFF then
      indirectForm bytes
    else if opcode = 0x0F then
      vectorForm x bytes
    else if x.wide then
      wideForm x opcode bytes
    else
      none

end Decoding

open Decoding in
-- The first instruction of the code.
def decode : Decoding.Reader Decoded
  | [] => none
  | b :: bytes =>
    match extension? b with
    | some x => form x bytes
    | none => form {} (b :: bytes)

-- The bytes are an instruction, whatever follows them.
def Decodes (bytes : List UInt8) (d : Decoded) : Prop :=
  ∀ rest, decode (bytes ++ rest) = some (d, rest)

-- What an instruction that encodes alike wherever it stands must be read as.
def Instruction.decoded? : Instruction → Option Decoded
  | .push r => some (.push r)
  | .pop r => some (.pop r)
  | .subImm r value => some (.sub r (BitVec.ofNat 64 value))
  | .addImm r value => some (.add r (BitVec.ofNat 64 value))
  | .move dst src => some (.move dst src)
  | .ret => some .ret
  | .label _ | .call _ | .byte _ => none

namespace Decoding

variable {number reg rm value : Nat} {rest : List UInt8}

theorem extension?_wide : ∀ reg < 16, ∀ rm < 16,
    extension? (Encoding.wide reg rm) = some ⟨true, reg / 8 * 8, rm / 8 * 8⟩ := by
  decide

theorem operands_operands :
    operands (Encoding.operands reg rm :: rest) = some (⟨reg % 8, rm % 8⟩, rest) := by
  have byte : (Encoding.operands reg rm).toNat = 0xC0 + reg % 8 * 8 + rm % 8 := by
    rw [Encoding.operands, UInt8.toNat_ofNat']
    omega
  have direct : (0xC0 + reg % 8 * 8 + rm % 8) / 64 = 3 := by omega
  have reg_eq : (0xC0 + reg % 8 * 8 + rm % 8) / 8 % 8 = reg % 8 := by omega
  have rm_eq : (0xC0 + reg % 8 * 8 + rm % 8) % 8 = rm % 8 := by omega
  simp only [operands, byte, direct, reg_eq, rm_eq, ↓reduceIte]

theorem signed_littleEndian (count value : Nat) (rest : List UInt8) :
    signed count (Bytes.littleEndian count value ++ rest) =
      some ((BitVec.ofNat (8 * count) value).signExtend 64, rest) := by
  have enough : ¬(Bytes.littleEndian count value ++ rest).length < count := by simp
  have read : BitVec.ofNat (8 * count) (value % Nat.pow 256 count) = BitVec.ofNat (8 * count) value := by
    apply BitVec.eq_of_toNat_eq
    have pow : Nat.pow 256 count = 2 ^ (8 * count) := by
      rw [Nat.pow_mul]
      rfl
    rw [BitVec.toNat_ofNat, BitVec.toNat_ofNat, pow, Nat.mod_mod]
  rw [signed, if_neg enough, List.take_left' (Bytes.length_littleEndian ..),
    List.drop_left' (Bytes.length_littleEndian ..), Bytes.toNat_littleEndian, read]

-- A number of the lower half keeps its value.
theorem signExtend_ofNat (bits : Nat) (h : value < 2 ^ bits) :
    (BitVec.ofNat (bits + 1) value).signExtend 64 = BitVec.ofNat 64 value := by
  have pow : 2 ^ (bits + 1) = 2 * 2 ^ bits := Nat.pow_succ'
  have low : (BitVec.ofNat (bits + 1) value).toNat = value := by
    rw [BitVec.toNat_ofNat, Nat.mod_eq_of_lt]
    omega
  have msb : (BitVec.ofNat (bits + 1) value).msb = false := by
    rw [BitVec.msb_eq_false_iff_two_mul_lt, low]
    omega
  rw [BitVec.signExtend_eq_setWidth_of_msb_false msb]
  apply BitVec.eq_of_toNat_eq
  rw [BitVec.toNat_setWidth, low, BitVec.toNat_ofNat]

-- A distance that takes 32 bits keeps its value.
theorem signExtend_distance {distance : Word}
    (h : -0x80000000 ≤ distance.toInt ∧ distance.toInt < 0x80000000) :
    (BitVec.ofNat 32 distance.toNat).signExtend 64 = distance := by
  apply BitVec.eq_of_toInt_eq
  have lt := distance.isLt
  rw [BitVec.toInt_signExtend, BitVec.toInt_eq_toNat_bmod, BitVec.toNat_ofNat]
  rw [BitVec.toInt_eq_toNat_bmod] at h ⊢
  simp only [Int.bmod, Nat.min_eq_right (show 32 ≤ 64 by decide)] at h ⊢
  omega

theorem decodes_push (h : number < 16) : Decodes (Encoding.push number) (.push (general number)) := by
  intro rest
  interval_cases number <;> rfl

theorem decodes_pop (h : number < 16) : Decodes (Encoding.pop number) (.pop (general number)) := by
  intro rest
  interval_cases number <;> rfl

theorem decode_wide {bytes : List UInt8} (hreg : reg < 16) (hrm : rm < 16) :
    decode (Encoding.wide reg rm :: bytes) = form ⟨true, reg / 8 * 8, rm / 8 * 8⟩ bytes := by
  rw [decode, extension?_wide reg hreg rm hrm]

theorem decodes_moveGeneral (hreg : reg < 16) (hrm : rm < 16) :
    Decodes (Encoding.moveGeneral rm reg) (.move (general rm) (general reg)) := by
  intro rest
  have reg_eq : reg / 8 * 8 + reg % 8 = reg := by omega
  have rm_eq : rm / 8 * 8 + rm % 8 = rm := by omega
  rw [Encoding.moveGeneral, List.cons_append, decode_wide hreg hrm]
  change (do
    let (o, bytes) ← operands (Encoding.operands reg rm :: rest)
    return (Decoded.move (general (rm / 8 * 8 + o.rm)) (general (reg / 8 * 8 + o.reg)), bytes)) = _
  rw [operands_operands]
  simp [reg_eq, rm_eq]

theorem vectorForm_operands {x : Extension} (hreg : x.reg = reg / 8 * 8) (hrm : x.rm = rm / 8 * 8) :
    form x (0x0F :: 0x28 :: Encoding.operands reg rm :: rest) =
      some (.move (vector reg) (vector rm), rest) := by
  have reg_eq : reg / 8 * 8 + reg % 8 = reg := by omega
  have rm_eq : rm / 8 * 8 + rm % 8 = rm := by omega
  change (do
    let (o, bytes) ← operands (Encoding.operands reg rm :: rest)
    return (Decoded.move (vector (x.reg + o.reg)) (vector (x.rm + o.rm)), bytes)) = _
  rw [operands_operands]
  simp [hreg, hrm, reg_eq, rm_eq]

theorem extension?_narrow : ∀ reg < 16, ∀ rm < 16,
    extension? (UInt8.ofNat (0x40 + Encoding.high reg * 4 + Encoding.high rm)) =
      some ⟨false, reg / 8 * 8, rm / 8 * 8⟩ := by
  decide

theorem decodes_moveVector (hreg : reg < 16) (hrm : rm < 16) :
    Decodes (Encoding.moveVector reg rm) (.move (vector reg) (vector rm)) := by
  intro rest
  rw [Encoding.moveVector]
  split
  case isTrue h =>
    refine vectorForm_operands (x := {}) ?_ ?_
    · change 0 = _
      omega
    · change 0 = _
      omega
  case isFalse =>
    rw [List.cons_append, List.cons_append, decode, extension?_narrow reg hreg rm hrm]
    exact vectorForm_operands rfl rfl

-- Both forms with an operand byte, the one with a short immediate and the one with a long one.
theorem immediate_operands {ext : Nat} {d : Decoded} (count : Nat) (h8 : ext < 8)
    (hv : (BitVec.ofNat (8 * count) value).signExtend 64 = BitVec.ofNat 64 value)
    (hd : operation? ext (general number) (BitVec.ofNat 64 value) = some d) :
    immediate ⟨true, 0, number / 8 * 8⟩ count
      (Encoding.operands ext number :: (Bytes.littleEndian count value ++ rest)) = some (d, rest) := by
  have number_eq : number / 8 * 8 + number % 8 = number := by omega
  have ext_eq : ext % 8 = ext := by omega
  rw [immediate, operands_operands]
  simp [signed_littleEndian, hv, number_eq, ext_eq, hd]

theorem decodes_arith {ext : Nat} {d : Decoded} (hext : ext = 0 ∨ ext = 5) (h : number < 16)
    (hv : value < 0x80000000)
    (hd : operation? ext (general number) (BitVec.ofNat 64 value) = some d) :
    Decodes (Encoding.arith ext number value) d := by
  intro rest
  have long : (BitVec.ofNat 32 value).signExtend 64 = BitVec.ofNat 64 value :=
    signExtend_ofNat 31 hv
  rw [Encoding.arith]
  split
  case isTrue hz =>
    subst hz
    rcases hext with rfl | rfl
    case inl =>
      cases hd
      change (do
        let (value, bytes) ← signed 4 (Bytes.littleEndian 4 value ++ rest)
        return (Decoded.add .rax value, bytes)) = _
      simp [signed_littleEndian, long, general, Register.rax]
    case inr =>
      cases hd
      change (do
        let (value, bytes) ← signed 4 (Bytes.littleEndian 4 value ++ rest)
        return (Decoded.sub .rax value, bytes)) = _
      simp [signed_littleEndian, long, general, Register.rax]
  case isFalse =>
    split
    case isTrue short =>
      rw [List.cons_append, decode_wide (by omega) h]
      exact immediate_operands 1 (by omega) (signExtend_ofNat 7 short) hd
    case isFalse =>
      rw [List.cons_append, List.cons_append, decode_wide (by omega) h]
      exact immediate_operands 4 (by omega) long hd

variable {next target : Word} {bytes : List UInt8}

theorem signed_displacement (h : Image.displacement next target = .ok bytes) :
    signed 4 (bytes ++ rest) = some (target - next, rest) := by
  rw [Image.displacement] at h
  split at h
  case isTrue reach =>
    cases h
    rw [signed_littleEndian, signExtend_distance (of_decide_eq_true reach)]
  case isFalse => cases h

theorem decodes_call (h : Image.displacement next target = .ok bytes) :
    Decodes (0xE8 :: bytes) (.call (target - next)) := by
  intro rest
  change (do
    let (distance, bytes) ← signed 4 (bytes ++ rest)
    return (Decoded.call distance, bytes)) = _
  rw [signed_displacement h]
  rfl

theorem decodes_callThrough (h : Image.displacement next target = .ok bytes) :
    Decodes (0xFF :: 0x15 :: bytes) (.callThrough (target - next)) := by
  intro rest
  change (do
    let (distance, bytes) ← signed 4 (bytes ++ rest)
    return (Decoded.callThrough distance, bytes)) = _
  rw [signed_displacement h]
  rfl

end Decoding

theorem generalNumber_eq_ok {r : Register} {number : Nat} (h : generalNumber r = .ok number) :
    number < 16 ∧ r = Decoding.general number := by
  rw [generalNumber] at h
  split at h
  case isTrue hr =>
    cases h
    obtain ⟨bank, id⟩ := r
    exact ⟨hr.right, congrArg (Register.mk · id) hr.left⟩
  case isFalse => cases h

theorem vectorNumber_eq_ok {r : Register} {number : Nat} (h : vectorNumber r = .ok number) :
    number < 16 ∧ r = Decoding.vector number := by
  rw [vectorNumber] at h
  split at h
  case isTrue hr =>
    cases h
    obtain ⟨bank, id⟩ := r
    exact ⟨hr.right, congrArg (Register.mk · id) hr.left⟩
  case isFalse => cases h

theorem immediate_eq_ok {value number : Nat} (h : immediate value = .ok number) :
    value < 0x80000000 ∧ number = value := by
  rw [immediate] at h
  split at h
  case isTrue hv =>
    cases h
    exact ⟨hv, rfl⟩
  case isFalse => cases h

-- An instruction is read as what it was written for.
theorem Instruction.decodes_encoding {i : Instruction} {d : Decoded} {bytes : List UInt8}
    (he : i.encoding = .ok bytes) (hd : i.decoded? = some d) : Decodes bytes d := by
  cases i <;> cases hd
  case push r =>
    cases hn : generalNumber r <;> rw [encoding, hn] at he <;> cases he
    obtain ⟨lt, rfl⟩ := generalNumber_eq_ok hn
    exact Decoding.decodes_push lt
  case pop r =>
    cases hn : generalNumber r <;> rw [encoding, hn] at he <;> cases he
    obtain ⟨lt, rfl⟩ := generalNumber_eq_ok hn
    exact Decoding.decodes_pop lt
  case subImm r value =>
    cases hn : generalNumber r <;> cases hv : immediate value <;> rw [encoding, hn, hv] at he <;>
      cases he
    obtain ⟨lt, rfl⟩ := generalNumber_eq_ok hn
    obtain ⟨small, rfl⟩ := immediate_eq_ok hv
    exact Decoding.decodes_arith (.inr rfl) lt small rfl
  case addImm r value =>
    cases hn : generalNumber r <;> cases hv : immediate value <;> rw [encoding, hn, hv] at he <;>
      cases he
    obtain ⟨lt, rfl⟩ := generalNumber_eq_ok hn
    obtain ⟨small, rfl⟩ := immediate_eq_ok hv
    exact Decoding.decodes_arith (.inl rfl) lt small rfl
  case move dst src =>
    rw [encoding] at he
    split at he
    case isTrue =>
      cases hd : vectorNumber dst <;> cases hs : vectorNumber src <;> rw [hd, hs] at he <;> cases he
      obtain ⟨lt, rfl⟩ := vectorNumber_eq_ok hd
      obtain ⟨lt', rfl⟩ := vectorNumber_eq_ok hs
      exact Decoding.decodes_moveVector lt lt'
    case isFalse =>
      cases hd : generalNumber dst <;> cases hs : generalNumber src <;> rw [hd, hs] at he <;> cases he
      obtain ⟨lt, rfl⟩ := generalNumber_eq_ok hd
      obtain ⟨lt', rfl⟩ := generalNumber_eq_ok hs
      exact Decoding.decodes_moveGeneral lt' lt
  case ret =>
    cases he
    exact fun rest => rfl

end StackCompiler.Machine
