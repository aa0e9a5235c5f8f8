import FlatCodec.Number.Text

namespace FlatCodec

namespace Decimal

/-- Decimal digits of a number, without a zero in front of others. -/
structure Digits (digits : List Char) (n : Nat) : Prop where
  some_digit : digits ≠ []
  each : ∀ c ∈ digits, c.isDigit = true
  no_zero_in_front : digits.head? = some '0' → digits = ['0']
  value : Nat.ofDigitChars 10 digits 0 = n

/-- The text is an integer in plain decimal; a minus sign stands in front of the digits of a
negative one, and no other sign in front of any. -/
def Spells (s : String) (z : Int) : Prop :=
  ∃ digits, Digits digits z.natAbs ∧ s.toList = if z < 0 then '-' :: digits else digits

theorem no_zero_in_front_of_toDigits (n : Nat) (zero : (Nat.toDigits 10 n).head? = some '0') :
    Nat.toDigits 10 n = ['0'] := by
  induction n using Nat.strongRecOn with
  | ind n shorter =>
    rw [Nat.toDigits_eq_if (by decide)] at zero ⊢
    by_cases single : n < 10
    · rw [if_pos single] at zero ⊢
      simpa using zero
    · -- The first digit is also that of the number without its last one, which is not zero.
      obtain ⟨c, cs, front⟩ := List.exists_cons_of_ne_nil (Nat.toDigits_ne_nil (n := n / 10))
      rw [if_neg single, front] at zero
      have alone := shorter (n / 10) (by omega) (front ▸ zero)
      have value : Nat.ofDigitChars 10 (Nat.toDigits 10 (n / 10)) 0 = n / 10 :=
        Nat.ofDigitChars_ten_toDigits
      rw [alone] at value
      have nothing : (0 : Nat) = n / 10 := value
      omega

theorem digits_toDigits (n : Nat) : Digits (Nat.toDigits 10 n) n where
  some_digit := Nat.toDigits_ne_nil
  each _ found := Nat.isDigit_of_mem_toDigits (by decide) (by decide) found
  no_zero_in_front := no_zero_in_front_of_toDigits n
  value := Nat.ofDigitChars_ten_toDigits

theorem spells_natCast (n : Nat) : Spells (toString n) n := by
  refine ⟨Nat.toDigits 10 n, digits_toDigits n, ?_⟩
  have natural : ¬ (n : Int) < 0 := by omega
  rw [if_neg natural, Nat.toString_eq_repr, Nat.toList_repr]

theorem spells_int (z : Int) : Spells (toString z) z := by
  refine ⟨Nat.toDigits 10 z.natAbs, digits_toDigits _, ?_⟩
  rw [Int.toString_eq_repr, Int.repr_eq_if]
  by_cases negative : z < 0
  · have amount : (-z).toNat = z.natAbs := by omega
    rw [if_pos negative, if_neg (Int.not_le.mpr negative), amount, String.toList_append,
      Nat.toList_repr]
    rfl
  · have amount : z.toNat = z.natAbs := by omega
    rw [if_neg negative, if_pos (Int.not_lt.mp negative), amount, Nat.toList_repr]

variable {s : String} {z z' : Int}

/-- A text spells no two integers. -/
theorem Spells.unique (spelled : Spells s z) (spelled' : Spells s z') : z = z' := by
  obtain ⟨ds, digits, text⟩ := spelled
  obtain ⟨ds', digits', text'⟩ := spelled'
  have no_minus {ds : List Char} {n : Nat} (digits : Digits ds n) : '-' ∉ ds := by
    intro found
    exact absurd (digits.each _ found) (by decide)
  have same := text.symm.trans text'
  by_cases negative : z < 0 <;> by_cases negative' : z' < 0
  · rw [if_pos negative, if_pos negative'] at same
    obtain rfl := List.cons.inj same |>.2
    have amount := digits.value.symm.trans digits'.value
    omega
  · rw [if_pos negative, if_neg negative'] at same
    exact absurd (same ▸ List.mem_cons_self) (no_minus digits')
  · rw [if_neg negative, if_pos negative'] at same
    exact absurd (same ▸ List.mem_cons_self) (no_minus digits)
  · rw [if_neg negative, if_neg negative'] at same
    obtain rfl := same
    have amount := digits.value.symm.trans digits'.value
    omega

/-- Of the characters of such a text each is a digit or the minus sign. -/
theorem Spells.each (spelled : Spells s z) {c : Char} (found : c ∈ s.toList) :
    c = '-' ∨ c.isDigit = true := by
  obtain ⟨ds, digits, text⟩ := spelled
  rw [text] at found
  by_cases negative : z < 0
  · rw [if_pos negative] at found
    rcases List.mem_cons.mp found with minus | digit
    · exact .inl minus
    · exact .inr (digits.each c digit)
  · rw [if_neg negative] at found
    exact .inr (digits.each c found)

theorem Spells.ne_empty (spelled : Spells s z) : s.toList ≠ [] := by
  obtain ⟨ds, digits, text⟩ := spelled
  rw [text]
  by_cases negative : z < 0
  · rw [if_pos negative]
    exact List.cons_ne_nil _ _
  · rw [if_neg negative]
    exact digits.some_digit

end Decimal

namespace Number

/-- The integer that the bits stand for; in a floating-point format they stand for none. -/
def integer? : (k : Number) → k.Bits → Option Int
  | unsigned _, bits => some bits.toNat
  | signed _, bits => some bits.toInt
  | float _, _ => none

theorem text_spells {k : Number} {bits : k.Bits} {z : Int} (whole : k.integer? bits = some z) :
    Decimal.Spells (k.text bits) z := by
  cases k with
  | unsigned size =>
    obtain rfl := Option.some.inj whole
    exact Decimal.spells_natCast _
  | signed size =>
    obtain rfl := Option.some.inj whole
    exact Decimal.spells_int _
  | float precision => cases whole

theorem integer?_inj {k : Number} {bits bits' : k.Bits} {z : Int}
    (whole : k.integer? bits = some z) (whole' : k.integer? bits' = some z) : bits = bits' := by
  cases k with
  | unsigned size =>
    have same : (bits.toNat : Int) = bits'.toNat :=
      (Option.some.inj whole).trans (Option.some.inj whole').symm
    exact BitVec.eq_of_toNat_eq (Int.ofNat.inj same)
  | signed size =>
    have same : bits.toInt = bits'.toInt :=
      (Option.some.inj whole).trans (Option.some.inj whole').symm
    exact BitVec.eq_of_toInt_eq same
  | float precision => cases whole

end Number

end FlatCodec
