import FlatCodec.Error
import FlatCodec.Item
import FlatCodec.Limits

namespace FlatCodec

namespace Item

mutual

/-- The first thing wrong with an item on a walk in writing order, with `opened` levels around
it. At a node the count or the discriminant is looked at before the level, and the level
before what lies inside. -/
def fault? (limit : Nat) : (opened : Nat) → Item → Option EncodeError
  | _, number .. => none
  | _, bool _ => none
  | _, text s =>
    if maxCount < s.utf8ByteSize then some (.lengthExceedsLimit "text" s.utf8ByteSize maxCount)
    else none
  | opened, sequence elements =>
    if maxCount < elements.length then
      some (.lengthExceedsLimit "sequence" elements.length maxCount)
    else if limit ≤ opened then some (.depthExceeded limit)
    else faultAll? limit (opened + 1) elements
  | opened, union d payload =>
    if maxDiscriminant < d then some (.discriminantExceedsLimit d maxDiscriminant)
    else if limit ≤ opened then some (.depthExceeded limit)
    else fault? limit (opened + 1) payload
  | opened, composite fields =>
    if limit ≤ opened then some (.depthExceeded limit) else faultAll? limit (opened + 1) fields

def faultAll? (limit : Nat) : (opened : Nat) → List Item → Option EncodeError
  | _, [] => none
  | opened, i :: is =>
    match fault? limit opened i with
    | some e => some e
    | none => faultAll? limit opened is

end

theorem faultAll?_eq_findSome? (limit opened : Nat) (items : List Item) :
    faultAll? limit opened items = items.findSome? (fault? limit opened) := by
  induction items with
  | nil => rfl
  | cons i is ih =>
    rw [faultAll?, List.findSome?_cons, ih]
    cases fault? limit opened i <;> rfl

variable {limit opened : Nat}

theorem fault?_text_eq_none_iff {s : String} :
    fault? limit opened (.text s) = none ↔ s.utf8ByteSize ≤ maxCount := by
  simp [fault?]

theorem fault?_sequence_eq_none_iff {elements : List Item} :
    fault? limit opened (.sequence elements) = none ↔
      elements.length ≤ maxCount ∧ opened < limit ∧
        faultAll? limit (opened + 1) elements = none := by
  grind [fault?]

theorem fault?_union_eq_none_iff {d : Nat} {payload : Item} :
    fault? limit opened (.union d payload) = none ↔
      d ≤ maxDiscriminant ∧ opened < limit ∧ fault? limit (opened + 1) payload = none := by
  grind [fault?]

theorem fault?_composite_eq_none_iff {fields : List Item} :
    fault? limit opened (.composite fields) = none ↔
      opened < limit ∧ faultAll? limit (opened + 1) fields = none := by
  grind [fault?]

theorem faultAll?_eq_none_iff {items : List Item} :
    faultAll? limit opened items = none ↔ ∀ i ∈ items, fault? limit opened i = none := by
  rw [faultAll?_eq_findSome?, List.findSome?_eq_none_iff]

theorem faultAll?_cons_eq_none_iff {i : Item} {is : List Item} :
    faultAll? limit opened (i :: is) = none ↔
      fault? limit opened i = none ∧ faultAll? limit opened is = none := by
  simp [faultAll?_eq_none_iff]

end Item

end FlatCodec
