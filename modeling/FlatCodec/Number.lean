namespace FlatCodec

/-- The sizes integers come in. A `word` is as wide as an address of the host, which is taken to
have 64 bits. -/
inductive Size where
  | one | two | four | eight | sixteen | word
  deriving DecidableEq, Repr

namespace Size

def bytes : Size → Nat
  | one => 1
  | two => 2
  | four => 4
  | eight => 8
  | sixteen => 16
  | word => 8

/-- The bit count as messages spell it; a word has no count in its name. -/
def name : Size → String
  | one => "8"
  | two => "16"
  | four => "32"
  | eight => "64"
  | sixteen => "128"
  | word => "size"

end Size

inductive Precision where
  | single | double
  deriving DecidableEq, Repr

namespace Precision

def bytes : Precision → Nat
  | single => 4
  | double => 8

/-- Stored bits of the fraction; a normal number has one more, which is not stored. -/
def fractionBits : Precision → Nat
  | single => 23
  | double => 52

def exponentBits : Precision → Nat
  | single => 8
  | double => 11

def name : Precision → String
  | single => "32"
  | double => "64"

end Precision

inductive Number where
  | unsigned (size : Size)
  | signed (size : Size)
  | float (precision : Precision)
  deriving DecidableEq, Repr

namespace Number

def bytes : Number → Nat
  | unsigned s => s.bytes
  | signed s => s.bytes
  | float p => p.bytes

/-- The name under which a failed read reports the format. -/
def name : Number → String
  | unsigned s => "u" ++ s.name
  | signed s => "i" ++ s.name
  | float p => "f" ++ p.name

/-- The bit pattern of a number. What it stands for is the format's business, so two values
of one format are equal exactly when their bits are, not-a-numbers included. -/
abbrev Bits (k : Number) : Type := BitVec (8 * k.bytes)

end Number

end FlatCodec
