import StackCompiler.Ieee.Shortest

-- The text of a floating point number: positional while the exponent of its first digit is in a
-- small range, and with an exponent mark beyond.

namespace StackCompiler.Ieee

namespace Decimal

-- The digits from the first to the last that is not zero.
def significant (d : Decimal) : List Char :=
  ((Nat.toDigits 10 d.digits).reverse.dropWhile (· == '0')).reverse

-- The exponent of the first digit.
def lead (d : Decimal) : Int :=
  d.exponent + (Nat.toDigits 10 d.digits).length - 1

-- A number is written positionally if its first digit stands at `10 ^ -4` up to `10 ^ 15`.
def isPositional (d : Decimal) : Bool :=
  -4 ≤ d.lead && d.lead < 16

-- Positional text, with at least one digit on either side of the point.
def positional (d : Decimal) : String :=
  let digits := d.significant
  if d.lead < 0 then
    "0." ++ String.ofList (List.replicate ((-d.lead).toNat - 1) '0' ++ digits)
  else
    let places := d.lead.toNat + 1
    let whole := digits.take places ++ List.replicate (places - digits.length) '0'
    let rest := digits.drop places
    String.ofList whole ++ "." ++ String.ofList (if rest.isEmpty then ['0'] else rest)

-- Text with an exponent; the exponent has neither a plus sign nor padding.
def scientific (d : Decimal) : String :=
  let digits := d.significant
  let rest := digits.drop 1
  String.ofList (digits.take 1) ++ (if rest.isEmpty then "" else "." ++ String.ofList rest)
    ++ "e" ++ toString d.lead

def text (d : Decimal) : String :=
  if d.isPositional then d.positional else d.scientific

end Decimal

-- The text of a double precision word. Not-a-number has no sign, and zero keeps its own.
def text (word : BitVec 64) : String :=
  match decode .double word.toNat with
  | .nan => "NaN"
  | .infinity negative => sign negative ++ "inf"
  | .finite negative 0 _ => sign negative ++ "0.0"
  | .finite negative mantissa exponent => sign negative ++ (shortest mantissa exponent).text
where
  sign (negative : Bool) : String := if negative then "-" else ""

end StackCompiler.Ieee
