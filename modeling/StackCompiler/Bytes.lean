-- Byte strings: little-endian words and lower-case hexadecimal text.

namespace StackCompiler

namespace Bytes

-- The `count` lowest bytes of `value`, lowest first.
def littleEndian : (count value : Nat) → List UInt8
  | 0, _ => []
  | n + 1, value => UInt8.ofNat value :: littleEndian n (value / 256)

@[simp]
theorem length_littleEndian (n value : Nat) : (littleEndian n value).length = n := by
  induction n generalizing value <;> simp [littleEndian, *]

-- The number that a little-endian byte string stands for.
def toNat : List UInt8 → Nat
  | [] => 0
  | b :: bs => b.toNat + 256 * toNat bs

theorem toNat_littleEndian (n value : Nat) : toNat (littleEndian n value) = value % Nat.pow 256 n := by
  induction n generalizing value with
  | zero => simp [littleEndian, toNat, Nat.mod_one]
  | succ n ih =>
    have lowest : (UInt8.ofNat value).toNat = value % 256 := by simp
    have pow : Nat.pow 256 (n + 1) = 256 * Nat.pow 256 n := Nat.mul_comm ..
    rw [littleEndian, toNat, ih, lowest, pow, Nat.mod_mul]

-- A byte as two hexadecimal digits.
def hexByte (b : UInt8) : String :=
  String.ofList [Nat.digitChar (b.toNat / 16), Nat.digitChar (b.toNat % 16)]

def hex (bytes : List UInt8) : String :=
  String.join (bytes.map hexByte)

end Bytes

end StackCompiler
