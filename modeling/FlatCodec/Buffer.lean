import FlatCodec.Error
import FlatCodec.Limits

namespace FlatCodec

abbrev Buffer := Array UInt8

/-- An action that writes at the end of a buffer. When it fails, the buffer holds what was
written up to the failure. -/
abbrev Writing (α : Type) := EStateM EncodeError Buffer α

namespace Buffer

def writeByte (b : UInt8) : Writing Unit := modify (·.push b)

def writeBytes (bs : List UInt8) : Writing Unit := modify fun (buffer : Buffer) => buffer ++ bs

/-- Writes a count in one byte. A count that does not fit is refused, never cut, and nothing
is written for it. -/
def writeCount (n : Nat) (category : String) : Writing Unit :=
  if n ≤ maxCount then writeByte (UInt8.ofNat n)
  else throw (.lengthExceedsLimit category n maxCount)

/-- Keeps the first `n` bytes; a shorter buffer stays as it is. -/
def truncate (n : Nat) : Writing Unit := modify (·.take n)

@[simp] theorem writeByte_run (b : UInt8) (buffer : Buffer) :
    writeByte b buffer = .ok () (buffer ++ [b]) := by
  show EStateM.Result.ok () (buffer.push b) = .ok () (buffer ++ [b])
  simp

@[simp] theorem writeBytes_run (bs : List UInt8) (buffer : Buffer) :
    writeBytes bs buffer = .ok () (buffer ++ bs) := rfl

theorem writeCount_run (n : Nat) (category : String) (buffer : Buffer) :
    writeCount n category buffer =
      if n ≤ maxCount then .ok () (buffer ++ [UInt8.ofNat n])
      else .error (.lengthExceedsLimit category n maxCount) buffer := by
  unfold writeCount
  split
  · exact writeByte_run _ _
  · rfl

@[simp] theorem truncate_run (n : Nat) (buffer : Buffer) :
    truncate n buffer = .ok () (buffer.take n) := rfl

theorem append_assoc (buffer : Buffer) (bs cs : List UInt8) :
    buffer ++ bs ++ cs = buffer ++ (bs ++ cs) := by
  apply Array.toList_inj.mp
  simp

theorem size_append (buffer : Buffer) (bs : List UInt8) :
    (buffer ++ bs).size = buffer.size + bs.length := by
  rw [← Array.length_toList]
  simp

theorem take_size_append (buffer : Buffer) (bs : List UInt8) :
    (buffer ++ bs).take buffer.size = buffer := by
  apply Array.toList_inj.mp
  simp

inductive Step where
  | byte (b : UInt8)
  | bytes (bs : List UInt8)
  | count (n : Nat) (category : String)
  | truncate (n : Nat)

def Step.run : Step → Writing Unit
  | byte b => writeByte b
  | bytes bs => writeBytes bs
  | count n category => writeCount n category
  | truncate n => Buffer.truncate n

end Buffer

end FlatCodec
