import StackCompiler.Machine.Encoding

-- Images: machine code that grows by streams of instructions and is laid out at a base address in
-- the end. A call to a label of the image reaches it directly, and a call to a symbol outside
-- reaches it by displacement or, if the symbol is too far away, through a pointer behind the code.
--
-- From the pieces on, images stand for the assembler and the block encoder of iced-x86. These are the
-- rules of it that they follow:
--  * a label names the next instruction or data byte, and each of these has one label at most;
--  * labels are numbered from one on as they are first mentioned, and a call holds a number alone, that
--    of its label or the address of its symbol. The number of a label that names a piece leads to the
--    piece, and any other number is an address. No symbol is at address zero, which is the number of a
--    piece without a label;
--  * a call takes five bytes with a displacement of 32 bits. One to an address out of its reach takes
--    six and goes through a pointer of eight bytes behind the code, which is filled up with 0xCC to a
--    multiple of eight;
--  * addresses wrap around, and a displacement that does not fit is an error.

namespace StackCompiler.Machine

-- A piece of code whose bytes may depend on where it comes to stand.
inductive Piece where
  | bytes (value : List UInt8)
  | callLabel (name : String)
  | callAddress (target : BitVec 64)
deriving DecidableEq, Repr

-- A piece with the label that names its place.
structure Chunk where
  label : Option String
  piece : Piece
deriving DecidableEq, Repr

@[ext]
structure Image where
  base : BitVec 64
  -- Addresses outside the image, the latest definition first.
  symbols : List (String × BitVec 64) := []
  -- The labels that were mentioned, in the order in which they first were.
  labels : List String := []
  -- The labels that were given a place.
  placed : List String := []
  -- A label that waits for the next piece.
  pending : Option String := none
  chunks : List Chunk := []
deriving DecidableEq, Repr

namespace Image

def defineSymbol (i : Image) (name : String) (address : BitVec 64) : Image :=
  { i with symbols := (name, address) :: i.symbols }

def mention (i : Image) (name : String) : Image :=
  if i.labels.contains name then i else { i with labels := i.labels ++ [name] }

-- Adds a piece, under the label that waits.
def add (i : Image) (piece : Piece) : Image :=
  { i with chunks := i.chunks ++ [⟨i.pending, piece⟩], pending := none }

-- A step that can fail and that keeps what it did before.
abbrev Emit := EStateM EncodingError Image

def addBytes (bytes : List UInt8) : Emit Unit :=
  modify (·.add (.bytes bytes))

-- Gives a label the place of the next piece. No label has two places, and no place two labels; a
-- label that comes second to a place counts as placed all the same.
def placeLabel (name : String) : Emit Unit := do
  let i ← get
  if i.placed.contains name then
    throw (.duplicateLabel name)
  let i := { i.mention name with placed := name :: i.placed }
  set i
  if i.pending.isSome then
    throw .labelPending
  set { i with pending := some name }

-- A call goes to the label of that name. Only a name that no stream so far has mentioned as a label
-- can stand for a symbol.
def addCall (target : String) : Emit Unit :=
  modify fun i =>
    match i.labels.contains target, i.symbols.lookup target with
    | false, some address => i.add (.callAddress address)
    | _, _ => (i.mention target).add (.callLabel target)

def encodeInstruction : Instruction → Emit Unit
  | .label name => placeLabel name
  | .push r => do addBytes (Encoding.push (← ofExcept (generalNumber r)))
  | .pop r => do addBytes (Encoding.pop (← ofExcept (generalNumber r)))
  | .subImm r value => do
    let number ← ofExcept (generalNumber r)
    addBytes (Encoding.sub number (← ofExcept (immediate value)))
  | .addImm r value => do
    let number ← ofExcept (generalNumber r)
    addBytes (Encoding.add number (← ofExcept (immediate value)))
  | .move dst src =>
    if dst.bank = Register.vectorBank then do
      let number ← ofExcept (vectorNumber dst)
      addBytes (Encoding.moveVector number (← ofExcept (vectorNumber src)))
    else do
      let number ← ofExcept (generalNumber dst)
      addBytes (Encoding.moveGeneral number (← ofExcept (generalNumber src)))
  | .call target => addCall target
  | .ret => addBytes [0xC3]
  | .byte value => addBytes [value]

-- The labels that a stream places.
def labelsOf (code : List Instruction) : List String :=
  code.filterMap fun
    | .label name => some name
    | _ => none

-- Adds a stream. Its own labels are known before its first call.
def encode (code : List Instruction) : Emit Unit := do
  modify fun i => (labelsOf code).foldl mention i
  code.forM encodeInstruction

-- Whether a displacement of 32 bits, counted from `next` on, reaches `target`.
def reaches (next target : BitVec 64) : Bool :=
  let distance := (target - next).toInt
  decide (-0x80000000 ≤ distance ∧ distance < 0x80000000)

-- Whether a call at `ip` reaches `target` by a displacement.
def isNear (ip target : BitVec 64) : Bool :=
  reaches (ip + 5) target

-- The size of a piece at `ip`.
def pieceSize (ip : BitVec 64) : Piece → Nat
  | .bytes value => value.length
  | .callLabel _ => 5
  | .callAddress target => if isNear ip target then 5 else 6

-- The label with a number, counted from one.
def numbered (labels : List String) (value : BitVec 64) : Option String :=
  if value = 0 then none else labels[value.toNat - 1]?

-- Whether a label names a piece.
def names (i : Image) (name : String) : Bool :=
  i.chunks.any (·.label == some name)

-- A label that names no piece stands for its number, and a number for the label that has it, if that
-- names a piece.
def resolve (i : Image) : Piece → Piece
  | .callLabel name =>
    if i.names name then .callLabel name
    else .callAddress (BitVec.ofNat 64 (i.labels.idxOf name + 1))
  | .callAddress value => ((numbered i.labels value).filter i.names).elim (.callAddress value) .callLabel
  | piece => piece

-- The chunks with their addresses, one after the other from `ip` on.
def place (ip : BitVec 64) : List Chunk → List (BitVec 64 × Chunk)
  | [] => []
  | c :: rest => (ip, c) :: place (ip + BitVec.ofNat 64 (pieceSize ip c.piece)) rest

-- The address behind the last chunk.
def endAddress (ip : BitVec 64) : List Chunk → BitVec 64
  | [] => ip
  | c :: rest => endAddress (ip + BitVec.ofNat 64 (pieceSize ip c.piece)) rest

-- The address of the piece that a label names.
def addressOf (chunks : List (BitVec 64 × Chunk)) (name : String) : BitVec 64 :=
  ((chunks.find? (·.2.label == some name)).map Prod.fst).getD 0

-- The targets that are out of reach of their calls, in call order.
def farTargets (chunks : List (BitVec 64 × Chunk)) : List (BitVec 64) :=
  chunks.filterMap fun (ip, c) =>
    match c.piece with
    | .callAddress target => if isNear ip target then none else some target
    | _ => none

-- The last four bytes of an instruction that leads to `target` and that `next` follows.
def displacement (next target : BitVec 64) : Except EncodingError (List UInt8) :=
  if reaches next target then .ok (Bytes.littleEndian 4 (target - next).toNat)
  else .error (.outOfReach next target)

-- The bytes of a piece at `ip`, where `pointer` is the place for the address of a target that is out
-- of reach.
def pieceBytes (address : String → BitVec 64) (ip pointer : BitVec 64) :
    Piece → Except EncodingError (List UInt8)
  | .bytes value => .ok value
  | .callLabel name => return 0xE8 :: (← displacement (ip + 5) (address name))
  | .callAddress target =>
    if isNear ip target then
      return 0xE8 :: (← displacement (ip + 5) target)
    else
      return 0xFF :: 0x15 :: (← displacement (ip + 6) pointer)

-- The place for the next pointer behind a piece at `ip`.
def nextPointer (ip pointer : BitVec 64) : Piece → BitVec 64
  | .callAddress target => if isNear ip target then pointer else pointer + 8
  | _ => pointer

-- The bytes of the chunks. The pointers for calls out of reach begin at `pointer`.
def write (address : String → BitVec 64) :
    (pointer : BitVec 64) → List (BitVec 64 × Chunk) → Except EncodingError (List UInt8)
  | _, [] => .ok []
  | pointer, (ip, c) :: rest => do
    let piece ← pieceBytes address ip pointer c.piece
    return piece ++ (← write address (nextPointer ip pointer c.piece) rest)

-- How many bytes bring an address to a multiple of eight.
def padding (ip : BitVec 64) : Nat :=
  (8 - ip.toNat % 8) % 8

-- The pointers behind the code, which ends at `stop`.
def pointers (stop : BitVec 64) : (far : List (BitVec 64)) → List UInt8
  | [] => []
  | far => List.replicate (padding stop) 0xCC ++ far.flatMap fun t => Bytes.littleEndian 8 t.toNat

-- The bytes of the image, from the base address on.
def bytes (i : Image) : Except EncodingError (List UInt8) := do
  let chunks := i.chunks.map fun c => { c with piece := i.resolve c.piece }
  let placed := place i.base chunks
  let stop := endAddress i.base chunks
  let code ← write (addressOf placed) (stop + BitVec.ofNat 64 (padding stop)) placed
  return code ++ pointers stop (farTargets placed)

-- The labels that were mentioned but never placed, in the order of their names.
def unresolved (i : Image) : List String :=
  (i.labels.filter fun name => !i.placed.contains name).mergeSort fun a b => decide (a ≤ b)

-- The finished code. Every call must have found its target and every label a piece, and no call may
-- be out of reach of where it leads.
def finalize (i : Image) : Except EncodingError (List UInt8) :=
  match i.unresolved with
  | name :: _ => .error (.unknownTarget name)
  | [] => if i.pending.isSome then .error .labelUnused else i.bytes

end Image

end StackCompiler.Machine
