import FlatCodec.Limits
import FlatCodec.Value.Read

namespace FlatCodec

structure DecodeOptions where
  offset : Nat := 0
  /-- How many sequences, unions and composites may enclose each other. -/
  maxDepth : Nat := defaultMaxDepth
  allowTrailing : Bool := false

namespace Data

variable {C : Catalogue} {t : Ty C.Name}

def fromBytesIntoWith (options : DecodeOptions) (slot : Value C t) (bytes : List UInt8) :
    Except DecodeError (Value C t) := do
  let reader ← Reader.at? bytes options.offset
  match readInto options.maxDepth slot reader with
  | .error e _ => throw e
  | .ok v rest =>
    unless options.allowTrailing do rest.finish
    return v

def fromBytesInto (slot : Value C t) (bytes : List UInt8) : Except DecodeError (Value C t) :=
  fromBytesIntoWith {} slot bytes

variable (t)

def fromBytesWith (options : DecodeOptions) (bytes : List UInt8) :
    Except DecodeError (Value C t) :=
  fromBytesIntoWith options (initial t) bytes

/-- Decodes bytes that hold one value and no more. -/
def fromBytes (bytes : List UInt8) : Except DecodeError (Value C t) := fromBytesWith t {} bytes

end Data

namespace Decoder

inductive Step (C : Catalogue) where
  | decode (t : Ty C.Name)
  | decodeInto {t : Ty C.Name} (slot : Value C t)
  | field {t : Ty C.Name} (slot : Value C t)
  /-- Checks that no bytes are left, whatever the options allow. -/
  | finish
  | raw (step : Reader.Step)

inductive Answer (C : Catalogue) where
  | value {t : Ty C.Name} (v : Value C t)
  | raw (answer : Reader.Answer)

def Step.run {C : Catalogue} (maxDepth : Nat) :
    Step C → EStateM DecodeError (Marked Decoder) (Answer C)
  | decode t => .value <$> Marked.lift (Data.decodeInto maxDepth (Data.initial t))
  | decodeInto slot => .value <$> Marked.lift (Data.decodeInto maxDepth slot)
  | field slot => .value <$> Marked.lift (Data.decodeInto maxDepth slot)
  | finish => do
    match (← get).current.state.finish with
    | .ok _ => return .raw .done
    | .error e => throw e
  | raw step => .raw <$> step.run

end Decoder

end FlatCodec
