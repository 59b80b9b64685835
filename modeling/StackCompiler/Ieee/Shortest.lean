import StackCompiler.Ieee.Word

-- The shortest decimal that reads back as a given double precision number.
--
-- A number is written with as few digits as tell it from its neighbours. Of the decimals with that
-- many digits the one nearest to the number is taken, and of two equally near ones the larger.

namespace StackCompiler.Ieee

-- The number `digits * 10 ^ exponent`.
structure Decimal where
  digits : Nat
  exponent : Int
deriving DecidableEq, Repr

-- A power with an integer exponent, as numerator and denominator.
def fraction (base : Nat) (exponent : Int) : Nat × Nat :=
  if 0 ≤ exponent then (base.pow exponent.toNat, 1) else (1, base.pow (-exponent).toNat)

-- The exponent of the leading decimal digit of the positive number `num / den`.
def leadingExponent (num den : Nat) : Int :=
  if den ≤ num then
    ((Nat.toDigits 10 (num / den)).length : Int) - 1
  else
    -((Nat.toDigits 10 ((den - 1) / num)).length : Int)

-- The reals that round to a number, over a common denominator: from `low` to `high`, with the ends
-- if `closed`.
structure Interval where
  low : Nat
  value : Nat
  high : Nat
  den : Nat
  closed : Bool

namespace Interval

-- The interval around `mantissa * 2 ^ exponent`. Below a power of two the numbers lie twice as
-- dense, so there the interval reaches only half as far down.
def around (fmt : Format) (mantissa : Nat) (exponent : Int) : Interval :=
  let (num, den) := fraction 2 (exponent - 2)
  let narrow := mantissa == 1 <<< fmt.fraction && exponent != fmt.minExponent
  { low := (4 * mantissa - (if narrow then 1 else 2)) * num
    value := 4 * mantissa * num
    high := (4 * mantissa + 2) * num
    den := den
    closed := mantissa % 2 == 0 }

-- The decimal with its last digit at `10 ^ exponent` that reads back, if there is one.
def hit? (i : Interval) (exponent : Int) : Option Decimal :=
  let (num, den) := fraction 10 exponent
  let below := i.value * den / (i.den * num)
  let step := num * i.den
  let isBelow := if i.closed then i.low * den ≤ below * step else i.low * den < below * step
  let isAbove :=
    if i.closed then (below + 1) * step ≤ i.high * den else (below + 1) * step < i.high * den
  match decide isBelow, decide isAbove with
  | false, false => none
  | true, false => some ⟨below, exponent⟩
  | false, true => some ⟨below + 1, exponent⟩
  | true, true =>
    some ⟨if 2 * (i.value * den) < (2 * below + 1) * step then below else below + 1, exponent⟩

end Interval

-- Seventeen digits tell any two double precision numbers apart.
def shortest (mantissa : Nat) (exponent : Int) : Decimal :=
  let i := Interval.around .double mantissa exponent
  let lead := leadingExponent i.value i.den
  ((List.range 17).findSome? fun (n : Nat) => i.hit? (lead - n)).getD ⟨mantissa, exponent⟩

end StackCompiler.Ieee
