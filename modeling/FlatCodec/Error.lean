namespace FlatCodec

/-- What can be wrong with bytes that are read as a value. -/
inductive DecodeError where
  | invalidTag (tag : UInt8) (alternatives : Nat)
  /-- More bytes are needed than are left; the context names what was read. -/
  | outOfBounds (context : String) (needed remaining : Nat)
  | invalidUtf8 (context : String)
  | invalidBool (value : UInt8)
  | trailingBytes (remaining : Nat)
  | depthExceeded (max : Nat)
  deriving DecidableEq, Repr

inductive ErrorGroup where
  | invalidTag | outOfBounds | invalidUtf8 | malformed | limitExceeded
  deriving DecidableEq, Repr

def ErrorGroup.code : ErrorGroup → String
  | invalidTag => "E001"
  | outOfBounds => "E002"
  | invalidUtf8 => "E003"
  | malformed => "E004"
  | limitExceeded => "E005"

namespace DecodeError

/-- A wrong truth value and left-over bytes share a group: both are malformed input. -/
def group : DecodeError → ErrorGroup
  | invalidTag .. => .invalidTag
  | outOfBounds .. => .outOfBounds
  | invalidUtf8 _ => .invalidUtf8
  | invalidBool _ => .malformed
  | trailingBytes _ => .malformed
  | depthExceeded _ => .limitExceeded

private def reason : DecodeError → String
  | invalidTag tag alternatives => s!"invalid union tag {tag} (alternatives: {alternatives})"
  | outOfBounds context needed remaining =>
    s!"reading {context} needs {needed} bytes, {remaining} remaining"
  | invalidUtf8 context => s!"invalid UTF-8 in {context}"
  | invalidBool value => s!"invalid bool value: {value} (expected 0x00 or 0x01)"
  | trailingBytes remaining => s!"{remaining} trailing bytes after value"
  | depthExceeded max => s!"nesting depth exceeds maximum {max}"

/-- The message leads with the code of the group. -/
def message (e : DecodeError) : String := s!"[{e.group.code}] {e.reason}"

end DecodeError

/-- Why a value has no byte form. -/
inductive EncodeError where
  | lengthExceedsLimit (category : String) (len max : Nat)
  | discriminantExceedsLimit (discriminant max : Nat)
  /-- The value nests deeper than the limit. -/
  | depthExceeded (max : Nat)
  deriving DecidableEq, Repr

namespace EncodeError

def message : EncodeError → String
  | lengthExceedsLimit category len max => s!"{category} length {len} exceeds maximum {max}"
  | discriminantExceedsLimit discriminant max =>
    s!"union discriminant {discriminant} exceeds maximum {max}"
  | depthExceeded max => s!"nesting depth exceeds maximum {max}"

end EncodeError

end FlatCodec
