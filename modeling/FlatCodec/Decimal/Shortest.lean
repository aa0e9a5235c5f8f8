namespace FlatCodec.Decimal

/-- A value with the interval of reals that stand for it, all in one unit; `closed` says
whether the ends belong to the interval. -/
structure Interval where
  low : Nat
  value : Nat
  high : Nat
  closed : Bool

namespace Interval

def Contains (i : Interval) (x : Nat) : Prop :=
  if i.closed then i.low ≤ x ∧ x ≤ i.high else i.low < x ∧ x < i.high

instance (i : Interval) (x : Nat) : Decidable (i.Contains x) :=
  inferInstanceAs (Decidable (if i.closed then _ else _))

/-- The multiple of `step` in the interval that is nearest to the value; of two equally near
ones the greater. If any multiple lies in the interval, one of the two around the value does. -/
def nearest? (i : Interval) (step : Nat) : Option Nat :=
  let below := i.value / step
  if i.Contains (below * step) then
    if i.Contains ((below + 1) * step) ∧ step ≤ 2 * (i.value % step) then some (below + 1)
    else some below
  else if i.Contains ((below + 1) * step) then some (below + 1)
  else none

/-- The coarsest power of ten, from the given one down, with a multiple in the interval, and
that multiple. Fewer digits than this stand for some other value. -/
def shortest (i : Interval) : (exponent : Nat) → Nat × Nat
  | 0 => (i.value, 0)
  | e + 1 =>
    match i.nearest? (Nat.pow 10 (e + 1)) with
    | some coefficient => (coefficient, e + 1)
    | none => i.shortest e

end Interval

end FlatCodec.Decimal
