namespace FlatCodec.Decimal

/-- The last `places` decimal digits of `n` in front of `digits`. A zero that would be the
last digit is left out. -/
def fraction : (places n : Nat) → (digits : List Char) → List Char
  | 0, _, digits => digits
  | places + 1, n, digits =>
    fraction places (n / 10)
      (if n % 10 = 0 ∧ digits.isEmpty then [] else Nat.digitChar (n % 10) :: digits)

/-- `n` divided by the power of ten with `places` zeros, written out in full: no exponent, no
zeros at the end of the fraction, and no point where no fraction follows. -/
def positional (places n : Nat) : String :=
  match fraction places n [] with
  | [] => toString (n / Nat.pow 10 places)
  | digits => toString (n / Nat.pow 10 places) ++ "." ++ String.ofList digits

end FlatCodec.Decimal
