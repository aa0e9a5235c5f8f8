import FlatCodec.Reader

namespace FlatCodec

/-- A byte string whose length a machine word holds. -/
structure Slice where
  bytes : List UInt8
  addressable : bytes.length < UInt64.size

def Slice.length (data : Slice) : UInt64 := UInt64.ofNat data.bytes.length

/-- Why a read on an index ends early: it fails with an error, or it goes astray, which is to
compute an index or a count that no place in the data has. -/
inductive Halt where
  | failed (e : DecodeError)
  | astray
  deriving DecidableEq, Repr

/-- A reader that keeps the whole of the data and the index of the next byte, in machine words. -/
structure IndexedReader where
  data : Slice
  index : UInt64

abbrev IndexedReading (α : Type) := EStateM Halt IndexedReader α

namespace IndexedReader

def remaining : IndexedReading UInt64 := fun r =>
  if r.index ≤ r.data.length then .ok (r.data.length - r.index) r else .error .astray r

/-- The index `n` bytes further on. That goes astray where it passes the end, and so wherever the
sum of the two words would wrap around. -/
def ahead (n : UInt64) : IndexedReading UInt64 := fun r =>
  if r.index.toNat + n.toNat ≤ r.data.bytes.length then .ok (r.index + n) r
  else .error .astray r

def bytesUpTo (stop : UInt64) : IndexedReading (List UInt8) := fun r =>
  if r.index ≤ stop ∧ stop ≤ r.data.length then
    .ok ((r.data.bytes.take stop.toNat).drop r.index.toNat) r
  else .error .astray r

/-- The bytes that are left are counted first, and the index is moved only if that many are. -/
def readBytes (n : UInt64) (context : String) : IndexedReading (List UInt8) := do
  let left ← remaining
  if left < n then throw (.failed (.outOfBounds context n.toNat left.toNat))
  let bytes ← bytesUpTo (← ahead n)
  let stop ← ahead n
  modify fun r => { r with index := stop }
  return bytes

/-- Reads into a place for exactly `n` bytes. -/
def readArray (n : UInt64) (context : String) : IndexedReading (List UInt8) := do
  let bytes ← readBytes n context
  if bytes.length = n.toNat then return bytes else throw .astray

def readByte (context : String) : IndexedReading UInt8 := do
  match (← readArray 1 context) with
  | [b] => return b
  | _ => throw .astray

def readCount (context : String) : IndexedReading Nat := return (← readByte context).toNat

/-- Here too the levels are only those that are handed down. -/
instance : Cursor Halt IndexedReader where
  failure := .failed
  reading
    | .byte context => readByte context
    | .bytes n context => readBytes (UInt64.ofNat n) context
    | .array n context => readArray (UInt64.ofNat n) context
  nested _ x := x

inductive Step where
  | byte (context : String)
  | count (context : String)
  | bytes (n : UInt64) (context : String)
  | array (n : UInt64) (context : String)
  | save
  | restore

def Step.run : Step → EStateM Halt (Marked IndexedReader) Reader.Answer
  | byte context => .byte <$> Marked.lift (readByte context)
  | count context => .count <$> Marked.lift (readCount context)
  | bytes n context => .bytes <$> Marked.lift (readBytes n context)
  | array n context => .bytes <$> Marked.lift (readArray n context)
  | save => do modify Marked.save; return .done
  | restore => do modify Marked.restore; return .done

/-- The step of a reader that keeps no index. It has one kind of read for byte strings, whether
their length is known beforehand or not. -/
def Step.plain : Step → Reader.Step
  | byte context => .byte context
  | count context => .count context
  | bytes n context => .bytes n.toNat context
  | array n context => .bytes n.toNat context
  | save => .save
  | restore => .restore

end IndexedReader

end FlatCodec
