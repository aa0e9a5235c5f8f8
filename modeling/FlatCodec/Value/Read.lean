import FlatCodec.Number.LittleEndian
import FlatCodec.Reader
import FlatCodec.Value.Initial

namespace FlatCodec

section Scalars

open Cursor (reading refuse)

variable {ε σ : Type} [Cursor ε σ]

def readNumber (k : Number) : EStateM ε σ k.Bits :=
  return k.ofBytes (← reading (.array k.bytes k.name))

def readBool : EStateM ε σ Bool := do
  match (← reading (.byte "bool")) with
  | 0 => return false
  | 1 => return true
  | value => refuse (.invalidBool value)

/-- The bytes are consumed before they are judged. -/
def readText : EStateM ε σ String := do
  let n ← readCount "text length"
  let bytes ← reading (.bytes n "text")
  match String.fromUTF8? ⟨bytes.toArray⟩ with
  | some s => return s
  | none => refuse (.invalidUtf8 "text")

end Scalars

namespace Data

open Cursor (reading refuse)

/-- How a value of each type is read into a slot. -/
abbrev SlotsOn (ε σ : Type) (C : Catalogue) : Type :=
  (t : Ty C.Name) → Value C t → EStateM ε σ (Value C t)

abbrev Slots (C : Catalogue) : Type := SlotsOn DecodeError Reader C

variable {C : Catalogue} {ε σ : Type} [Cursor ε σ]

/-- Runs what lies one level further in, given how to read there. -/
def nested {α : Type} (limit : Nat) (inner : Option (SlotsOn ε σ C))
    (body : SlotsOn ε σ C → EStateM ε σ α) : EStateM ε σ α :=
  match inner with
  | some inner => Cursor.nested limit (body inner)
  | none => refuse (.depthExceeded limit)

/-- Reads `n` elements, each into its slot while there are slots and into an initial value
after that; slots left over are dropped. -/
def readElements {t : Ty C.Name} (inner : SlotsOn ε σ C) :
    Nat → Elements C t → EStateM ε σ (Elements C t)
  | 0, _ => return .nil
  | n + 1, .nil => do
    let v ← inner t (initial t)
    return .cons v (← readElements inner n .nil)
  | n + 1, .cons slot slots => do
    let v ← inner t slot
    return .cons v (← readElements inner n slots)

/-- The slot of the next element, which is an initial value where the slots have run out. -/
def nextSlot {t : Ty C.Name} : Elements C t → Value C t
  | .nil => initial t
  | .cons slot _ => slot

def laterSlots {t : Ty C.Name} : Elements C t → Elements C t
  | .nil => .nil
  | .cons _ slots => slots

omit [Cursor ε σ] in
theorem readElements_succ {t : Ty C.Name} (inner : SlotsOn ε σ C) (n : Nat) (slots : Elements C t) :
    readElements inner (n + 1) slots = do
      let v ← inner t slots.nextSlot
      return .cons v (← readElements inner n slots.laterSlots) := by
  cases slots <;> rfl

/-- Reads the visited fields in order. A hidden field stays as the slot has it, and so does
the body of a flagged field where the flag just read does not hold. -/
def readFields (inner : SlotsOn ε σ C) :
    (fs : List (Field C.Name)) → Data C (.fields fs) → EStateM ε σ (Data C (.fields fs))
  | [], .done => return .done
  | .visited t :: fs, .visited slot slots => do
    let v ← inner t slot
    return .visited v (← readFields inner fs slots)
  | .hidden _ :: fs, .hidden slot slots => return .hidden slot (← readFields inner fs slots)
  | .flagged t :: fs, .flagged _ slot slots => do
    if ← readBool then
      let v ← inner t slot
      return .flagged true v (← readFields inner fs slots)
    else return .flagged false slot (← readFields inner fs slots)

/-- The payload of a declared alternative, always read into an initial value. An index that
names none is reported by its lowest byte; a uniform union takes every index. -/
def readDeclAlternative (inner : SlotsOn ε σ C) :
    (d : Decl C.Name) → Nat → EStateM ε σ (Data C (.body d))
  | .record _, i => refuse (.invalidTag (UInt8.ofNat i) 0)
  | .union k alternatives, i =>
    if h : i < k + 1 then
      return .union ⟨i, h⟩ (← inner (alternatives ⟨i, h⟩) (initial (alternatives ⟨i, h⟩)))
    else refuse (.invalidTag (UInt8.ofNat i) (k + 1))
  | .uniform _ t, i => return .uniform i (← inner t (initial t))

/-- The payload of an alternative of a union, always read into an initial value. A type that
is no union has no alternatives, so for it every index is out of range. -/
def readAlternative (inner : SlotsOn ε σ C) : (t : Ty C.Name) → Nat → EStateM ε σ (Value C t)
  | .option _, 0 => do
    let _ ← inner .unit .unit
    return .absent
  | .option t, 1 => return .present (← inner t (initial t))
  | .option _, i + 2 => refuse (.invalidTag (UInt8.ofNat (i + 2)) 2)
  | .oneOf k alternatives, i =>
    if h : i < k + 1 then
      return .oneOf ⟨i, h⟩ (← inner (alternatives ⟨i, h⟩) (initial (alternatives ⟨i, h⟩)))
    else refuse (.invalidTag (UInt8.ofNat i) (k + 1))
  | .named n, i => return .named (← readDeclAlternative inner (C.decl n) i)
  | _, i => refuse (.invalidTag (UInt8.ofNat i) 0)

/-- Reads a tag byte and then, one level further in, the alternative it names. The tag is
checked before the level is. -/
def readUnion {α : Type} (limit : Nat) (inner : Option (SlotsOn ε σ C)) (alternatives : Nat)
    (payload : SlotsOn ε σ C → Nat → EStateM ε σ α) : EStateM ε σ α := do
  let tag ← reading (.byte "union tag")
  if alternatives ≤ tag.toNat then refuse (.invalidTag tag alternatives)
  nested limit inner fun inner => payload inner tag.toNat

def readBody (limit : Nat) (inner : Option (SlotsOn ε σ C)) :
    (d : Decl C.Name) → Data C (.body d) → EStateM ε σ (Data C (.body d))
  | .record fs, .record slots =>
    nested limit inner fun inner => return .record (← readFields inner fs slots)
  | .union k alternatives, _ =>
    readUnion limit inner (k + 1) fun inner i => readDeclAlternative inner (.union k alternatives) i
  | .uniform n t, _ =>
    readUnion limit inner n fun inner i => readDeclAlternative inner (.uniform n t) i

/-- Reads a value into a slot of its type, given how to read one level further in. A box adds
no level; all other types that contain values do. -/
def readOne (limit : Nat) (inner : Option (SlotsOn ε σ C)) : SlotsOn ε σ C
  | .number k, _ => return .number k (← readNumber k)
  | .bool, _ => return .bool (← readBool)
  | .text, _ => return .text (← readText)
  | .unit, _ => nested limit inner fun _ => return .unit
  | .seq _, .seq slots => do
    let n ← readCount "sequence length"
    nested limit inner fun inner => return .seq (← readElements inner n slots)
  | .box t, .box slot => return .box (← readOne limit inner t slot)
  | .option t, _ => readUnion limit inner 2 fun inner i => readAlternative inner (.option t) i
  | .oneOf k alternatives, _ =>
    readUnion limit inner (k + 1) fun inner i => readAlternative inner (.oneOf k alternatives) i
  | .named n, .named slot => return .named (← readBody limit inner (C.decl n) slot)

/-- Reads a value into a slot with `room` levels left under the limit; each level further in
has one less, which bounds the recursion whatever the bytes say. -/
def readWithin (limit : Nat) : (room : Nat) → SlotsOn ε σ C
  | 0, t, slot => readOne limit none t slot
  | room + 1, t, slot => readOne limit (some (readWithin limit room)) t slot

def furtherIn (limit : Nat) : (room : Nat) → Option (SlotsOn ε σ C)
  | 0 => none
  | room + 1 => some (readWithin limit room)

theorem readWithin_eq (limit room : Nat) (t : Ty C.Name) (slot : Value C t) :
    readWithin (σ := σ) limit room t slot = readOne limit (furtherIn limit room) t slot := by
  cases room <;> rfl

/-- Reads a value into a slot, where a decoder counts the levels. -/
def decodeInto {t : Ty C.Name} (limit : Nat) (slot : Value C t) : Decoding (Value C t) :=
  readWithin limit limit t slot

/-- Reads a value into a slot with a decoder of its own. -/
def readInto {t : Ty C.Name} (limit : Nat) (slot : Value C t) : Reading (Value C t) :=
  Leveled.fresh (decodeInto limit slot)

def read (limit : Nat) (t : Ty C.Name) : Reading (Value C t) := readInto limit (initial t)

/-- Reads the alternative of a union that an index names, without a tag byte. -/
def readChosen (limit : Nat) (t : Ty C.Name) (i : Nat) : Reading (Value C t) :=
  Leveled.fresh (readAlternative (readWithin limit limit) t i)

end Data

end FlatCodec
