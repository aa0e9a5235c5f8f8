import FlatCodec.Buffer
import FlatCodec.Item.Layout
import FlatCodec.Level

namespace FlatCodec

/-- A buffer that items are written to, with the levels open around the next one. -/
abbrev Encoder := Leveled Buffer

abbrev Encoding (α : Type) := EStateM EncodeError Encoder α

namespace Item

open Leveled (lift)

/-- Runs what lies one level further in, where the limit leaves a level for it. -/
def nested (limit : Nat) (body : Encoding Unit) : Encoding Unit :=
  Leveled.nested limit (.depthExceeded limit) body

mutual

/-- Writes an item. What was written before a failure stays in the buffer. -/
def write (limit : Nat) : Item → Encoding Unit
  | number k bits => lift (Buffer.writeBytes (k.toBytes bits))
  | bool b => lift (Buffer.writeByte (if b then 1 else 0))
  | text s => do
    lift (Buffer.writeCount s.utf8ByteSize "text")
    lift (Buffer.writeBytes (utf8Bytes s))
  | sequence elements => do
    lift (Buffer.writeCount elements.length "sequence")
    nested limit (writeAll limit elements)
  | union d payload => do
    if maxDiscriminant < d then throw (.discriminantExceedsLimit d maxDiscriminant)
    lift (Buffer.writeByte (UInt8.ofNat d))
    nested limit (write limit payload)
  | composite fields => nested limit (writeAll limit fields)

def writeAll (limit : Nat) : List Item → Encoding Unit
  | [] => pure ()
  | i :: is => do
    write limit i
    writeAll limit is

end

/-- Writes an item, or nothing at all: on failure the buffer is cut back to where it began. -/
def encode (limit : Nat) (i : Item) : Encoding Unit := fun s =>
  match i.write limit s with
  | .ok _ s' => .ok () s'
  | .error e s' => .error e { s' with state := s'.state.take s.state.size }

def toBytes (limit : Nat) (i : Item) : Except EncodeError (List UInt8) :=
  match Leveled.fresh (i.encode limit) #[] with
  | .ok _ buffer => .ok buffer.toList
  | .error e _ => .error e

end Item

end FlatCodec
