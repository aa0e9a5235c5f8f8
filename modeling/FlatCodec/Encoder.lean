import FlatCodec.Item.Write
import FlatCodec.Value.View

namespace FlatCodec

structure EncodeOptions where
  /-- Bytes to reserve ahead; never seen in the result. Nothing is reserved here, so what becomes of
  a request for more than a machine can allocate is left open. -/
  capacity : Nat := 0
  maxDepth : Nat := defaultMaxDepth

namespace Data

variable {C : Catalogue} {t : Ty C.Name}

def toBytesWith (options : EncodeOptions) (v : Value C t) : Except EncodeError (List UInt8) :=
  v.view.toBytes options.maxDepth

def toBytes (v : Value C t) : Except EncodeError (List UInt8) := v.toBytesWith {}

/-- Appends the byte form of a value and answers how many bytes that took; the buffer is left
as it was when the value has no byte form. -/
def encodeInto (v : Value C t) : Writing Nat := do
  let start := (← get).size
  Leveled.fresh (v.view.encode defaultMaxDepth)
  return (← get).size - start

end Data

namespace Encoder

inductive Step (C : Catalogue) where
  /-- Appends a value, or nothing when it has no byte form. -/
  | encode {t : Ty C.Name} (v : Value C t)
  /-- Appends a value as a field of the caller's own composite: bytes written before a
  failure stay, since the enclosing encoding will drop them. -/
  | field {t : Ty C.Name} (v : Value C t)
  | raw (step : Buffer.Step)

def Step.run {C : Catalogue} (maxDepth : Nat) : Step C → Encoding Unit
  | encode v => v.view.encode maxDepth
  | field v => v.view.write maxDepth
  | raw step => Leveled.lift step.run

end Encoder

end FlatCodec
