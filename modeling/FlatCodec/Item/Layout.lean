import FlatCodec.Item
import FlatCodec.Limits
import FlatCodec.Number.LittleEndian

namespace FlatCodec

def utf8Bytes (s : String) : List UInt8 := s.toByteArray.data.toList

@[simp] theorem utf8Bytes_length (s : String) : (utf8Bytes s).length = s.utf8ByteSize := rfl

namespace Item

mutual

/-- The byte form of an item whose counts and discriminants fit a byte each: numbers lowest
byte first, texts and sequences behind a count, unions behind a tag, fields without framing. -/
def layout : Item → List UInt8
  | number k bits => k.toBytes bits
  | bool b => [if b then 1 else 0]
  | text s => UInt8.ofNat s.utf8ByteSize :: utf8Bytes s
  | sequence elements => UInt8.ofNat elements.length :: layoutAll elements
  | union d payload => UInt8.ofNat d :: layout payload
  | composite fields => layoutAll fields

def layoutAll : List Item → List UInt8
  | [] => []
  | i :: is => layout i ++ layoutAll is

end

theorem layoutAll_eq_flatMap (items : List Item) : layoutAll items = items.flatMap layout := by
  induction items with
  | nil => rfl
  | cons i is ih => simp [layoutAll, ih]

mutual

/-- How many sequences, unions and composites enclose each other. An absent option counts
twice, once for the union and once for the empty composite in it. -/
def depth : Item → Nat
  | number .. => 0
  | bool _ => 0
  | text _ => 0
  | sequence elements => 1 + depthAll elements
  | union _ payload => 1 + depth payload
  | composite fields => 1 + depthAll fields

def depthAll : List Item → Nat
  | [] => 0
  | i :: is => max (depth i) (depthAll is)

end

theorem depthAll_le_iff (items : List Item) (n : Nat) :
    depthAll items ≤ n ↔ ∀ i ∈ items, depth i ≤ n := by
  induction items with
  | nil => simp [depthAll]
  | cons i is ih => rw [depthAll, Nat.max_le, ih, List.forall_mem_cons]

/-- Every count and every discriminant fits its byte. -/
inductive Fits : Item → Prop where
  | number (k bits) : Fits (.number k bits)
  | bool (b) : Fits (.bool b)
  | text {s} (short : s.utf8ByteSize ≤ maxCount) : Fits (.text s)
  | sequence {elements} (short : elements.length ≤ maxCount) (each : ∀ i ∈ elements, Fits i) :
      Fits (.sequence elements)
  | union {d payload} (low : d ≤ maxDiscriminant) (inner : Fits payload) : Fits (.union d payload)
  | composite {fields} (each : ∀ i ∈ fields, Fits i) : Fits (.composite fields)

@[simp] theorem fits_number (k : Number) (bits : k.Bits) : Fits (.number k bits) := .number k bits

@[simp] theorem fits_bool (b : Bool) : Fits (.bool b) := .bool b

@[simp] theorem fits_text_iff (s : String) : Fits (.text s) ↔ s.utf8ByteSize ≤ maxCount :=
  ⟨fun | .text short => short, .text⟩

@[simp] theorem fits_sequence_iff (elements : List Item) :
    Fits (.sequence elements) ↔ elements.length ≤ maxCount ∧ ∀ i ∈ elements, Fits i :=
  ⟨fun | .sequence short each => ⟨short, each⟩, fun ⟨short, each⟩ => .sequence short each⟩

@[simp] theorem fits_union_iff (d : Nat) (payload : Item) :
    Fits (.union d payload) ↔ d ≤ maxDiscriminant ∧ Fits payload :=
  ⟨fun | .union low inner => ⟨low, inner⟩, fun ⟨low, inner⟩ => .union low inner⟩

@[simp] theorem fits_composite_iff (fields : List Item) :
    Fits (.composite fields) ↔ ∀ i ∈ fields, Fits i :=
  ⟨fun | .composite each => each, .composite⟩

end Item

end FlatCodec
