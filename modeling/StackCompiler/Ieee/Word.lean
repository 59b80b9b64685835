-- Floating point words: what a bit pattern stands for, and the widening of single to double
-- precision.

namespace StackCompiler.Ieee

-- A binary interchange format, given by the widths of its fraction and exponent fields.
structure Format where
  fraction : Nat
  exponent : Nat

namespace Format

def single : Format := ⟨23, 8⟩

def double : Format := ⟨52, 11⟩

def bias (fmt : Format) : Nat :=
  (1 <<< (fmt.exponent - 1)) - 1

-- The exponent of the last place of the smallest numbers of a format.
def minExponent (fmt : Format) : Int :=
  1 - fmt.bias - fmt.fraction

end Format

-- What a word stands for; a finite number is `mantissa * 2 ^ exponent` with a sign.
inductive Datum where
  | nan
  | infinity (negative : Bool)
  | finite (negative : Bool) (mantissa : Nat) (exponent : Int)
deriving DecidableEq, Repr

def decode (fmt : Format) (word : Nat) : Datum :=
  let fraction := word % (1 <<< fmt.fraction)
  let exponent := word / (1 <<< fmt.fraction) % (1 <<< fmt.exponent)
  let negative := word / (1 <<< (fmt.fraction + fmt.exponent)) % 2 == 1
  if exponent = (1 <<< fmt.exponent) - 1 then
    if fraction = 0 then .infinity negative else .nan
  else if exponent = 0 then
    .finite negative fraction fmt.minExponent
  else
    .finite negative ((1 <<< fmt.fraction) + fraction) (fmt.minExponent + exponent - 1)

-- The double precision word with the given fields.
def pack (negative : Bool) (exponent fraction : Nat) : BitVec 64 :=
  BitVec.ofNat 64 ((if negative then 1 <<< 63 else 0) + (exponent <<< 52) + fraction)

-- The double precision word of the same number. Every single precision number is a normal double
-- or zero, so nothing is rounded; not-a-number becomes quiet and keeps its payload.
def widen (word : BitVec 32) : BitVec 64 :=
  match decode .single word.toNat with
  | .nan => pack word.msb 2047 ((1 <<< 51) + (word.toNat % (1 <<< 22)) <<< 29)
  | .infinity negative => pack negative 2047 0
  | .finite negative 0 _ => pack negative 0 0
  | .finite negative mantissa exponent =>
    let lead := mantissa.log2
    pack negative (exponent + lead + 1023).toNat ((mantissa - (1 <<< lead)) <<< (52 - lead))

end StackCompiler.Ieee
