namespace FlatCodec

/-- A text's bytes and a sequence's elements are counted in one byte. -/
def maxCount : Nat := 255

def maxDiscriminant : Nat := 255

/-- A byte says a number only when the number is at most 255, and then exactly one byte does. -/
theorem byte_toNat_eq_iff {b : UInt8} {n : Nat} : b.toNat = n ↔ n ≤ 255 ∧ b = UInt8.ofNat n := by
  refine ⟨?_, ?_⟩
  · intro said
    subst said
    have bound := b.toNat_lt
    exact ⟨by omega, UInt8.ofNat_toNat.symm⟩
  · intro h
    obtain ⟨small, rfl⟩ := h
    exact UInt8.toNat_ofNat_of_lt (Nat.lt_succ_of_le small)

/-- The nesting allowed where the caller names no limit. -/
def defaultMaxDepth : Nat := 128

def version : String := "0.1.0"

end FlatCodec
