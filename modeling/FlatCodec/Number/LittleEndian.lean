import FlatCodec.Number

namespace FlatCodec

/-- The `n` lowest bytes of a natural number, lowest first. -/
def littleEndian : Nat → Nat → List UInt8
  | 0, _ => []
  | n + 1, x => UInt8.ofNat x :: littleEndian n (x / 256)

/-- The natural number whose bytes, lowest first, are the list. -/
def ofLittleEndian : List UInt8 → Nat
  | [] => 0
  | b :: bs => b.toNat + 256 * ofLittleEndian bs

@[simp] theorem littleEndian_length (n x : Nat) : (littleEndian n x).length = n := by
  induction n generalizing x with
  | zero => rfl
  | succ n ih => simp [littleEndian, ih]

theorem ofLittleEndian_lt (bs : List UInt8) : ofLittleEndian bs < Nat.pow 256 bs.length := by
  induction bs with
  | nil => decide
  | cons b bs ih =>
    have hb : b.toNat < 256 := b.toNat_lt
    simp only [ofLittleEndian, List.length_cons, Nat.pow_eq, Nat.pow_succ] at ih ⊢
    omega

theorem ofLittleEndian_littleEndian (n x : Nat) :
    ofLittleEndian (littleEndian n x) = x % Nat.pow 256 n := by
  induction n generalizing x with
  | zero => simp [littleEndian, ofLittleEndian, Nat.mod_one]
  | succ n ih =>
    have h : (UInt8.ofNat x).toNat = x % 256 := by simp
    rw [littleEndian, ofLittleEndian, ih, h]
    simp only [Nat.pow_eq]
    rw [Nat.pow_succ, Nat.mul_comm _ 256, Nat.mod_mul]

/-- Reading loses nothing, so each list of bytes is what its number is written as. -/
theorem littleEndian_ofLittleEndian (bs : List UInt8) :
    littleEndian bs.length (ofLittleEndian bs) = bs := by
  induction bs with
  | nil => rfl
  | cons b bs ih =>
    have hb : b.toNat < 256 := b.toNat_lt
    have hd : (b.toNat + 256 * ofLittleEndian bs) / 256 = ofLittleEndian bs := by omega
    have hm : UInt8.ofNat (b.toNat + 256 * ofLittleEndian bs) = b := by
      apply UInt8.toNat_inj.mp
      simp
    simp only [List.length_cons, littleEndian, ofLittleEndian, hd, ih, hm]

namespace Number

/-- The bytes of a number in the order in which the host keeps them, which is taken to be lowest
first. -/
def toBytes (k : Number) (bits : k.Bits) : List UInt8 := littleEndian k.bytes bits.toNat

def ofBytes (k : Number) (bytes : List UInt8) : k.Bits := BitVec.ofNat _ (ofLittleEndian bytes)

@[simp] theorem toBytes_length (k : Number) (bits : k.Bits) : (k.toBytes bits).length = k.bytes :=
  littleEndian_length _ _

private theorem pow_bytes (k : Number) : Nat.pow 256 k.bytes = Nat.pow 2 (8 * k.bytes) := by
  simp only [Nat.pow_eq, Nat.pow_mul]

theorem ofLittleEndian_toBytes (k : Number) (bits : k.Bits) :
    ofLittleEndian (k.toBytes bits) = bits.toNat := by
  rw [toBytes, ofLittleEndian_littleEndian, pow_bytes]
  exact Nat.mod_eq_of_lt bits.isLt

@[simp] theorem ofBytes_toBytes (k : Number) (bits : k.Bits) :
    k.ofBytes (k.toBytes bits) = bits := by
  apply BitVec.eq_of_toNat_eq
  rw [ofBytes, ofLittleEndian_toBytes, BitVec.toNat_ofNat]
  exact Nat.mod_eq_of_lt bits.isLt

theorem toBytes_ofBytes (k : Number) (bytes : List UInt8) (h : bytes.length = k.bytes) :
    k.toBytes (k.ofBytes bytes) = bytes := by
  have hlt : ofLittleEndian bytes < Nat.pow 2 (8 * k.bytes) := by
    rw [← pow_bytes, ← h]
    exact ofLittleEndian_lt bytes
  have kept : (k.ofBytes bytes).toNat = ofLittleEndian bytes := by
    rw [ofBytes, BitVec.toNat_ofNat]
    exact Nat.mod_eq_of_lt hlt
  rw [toBytes, kept, ← h]
  exact littleEndian_ofLittleEndian bytes

end Number

end FlatCodec
