import FlatCodec.Decimal.Positional
import FlatCodec.Decimal.Shortest
import FlatCodec.Number

namespace FlatCodec

namespace Precision

variable (p : Precision)

def fractionField (bits : BitVec (8 * p.bytes)) : Nat := bits.toNat % Nat.pow 2 p.fractionBits

def exponentField (bits : BitVec (8 * p.bytes)) : Nat :=
  bits.toNat / Nat.pow 2 p.fractionBits % Nat.pow 2 p.exponentBits

def isNegative (bits : BitVec (8 * p.bytes)) : Bool :=
  bits.toNat / Nat.pow 2 (p.fractionBits + p.exponentBits) == 1

/-- With this many decimal places, a quarter of the least positive number is still a whole
number of units in the last place, and so is every other finite number. -/
def places : Nat := Nat.pow 2 (p.exponentBits - 1) + p.fractionBits

/-- The magnitude with the reals that round to it, in units of the last decimal place. The
neighbours are a unit of the fraction away and halves round to the even fraction; below a
power of two the unit, and so the distance, is half as long. -/
def magnitude (exponent fraction : Nat) : Decimal.Interval :=
  let significand := if exponent = 0 then fraction else Nat.pow 2 p.fractionBits + fraction
  let quarter := Nat.pow 2 (exponent - 1) * Nat.pow 5 p.places
  let under := if fraction = 0 ∧ 1 < exponent then 1 else 2
  { low := (4 * significand - under) * quarter
    value := 4 * significand * quarter
    high := (4 * significand + 2) * quarter
    closed := fraction % 2 = 0 }

/-- The fewest digits that read back as the same number, written out in full. -/
def magnitudeText (exponent fraction : Nat) : String :=
  let interval := p.magnitude exponent fraction
  let (coefficient, zeros) := interval.shortest (Nat.toDigits 10 interval.value).length
  if zeros ≤ p.places then Decimal.positional (p.places - zeros) coefficient
  else toString (coefficient * Nat.pow 10 (zeros - p.places))

/-- Zero and infinity keep their sign; what is not a number has none. -/
def text (bits : BitVec (8 * p.bytes)) : String :=
  let exponent := p.exponentField bits
  let fraction := p.fractionField bits
  let sign := if p.isNegative bits then "-" else ""
  if exponent + 1 = Nat.pow 2 p.exponentBits then
    if fraction = 0 then sign ++ "inf" else "NaN"
  else sign ++ p.magnitudeText exponent fraction

end Precision

def Number.text : (k : Number) → k.Bits → String
  | unsigned _, bits => toString bits.toNat
  | signed _, bits => toString bits.toInt
  | float p, bits => p.text bits

end FlatCodec
