import FlatCodec.Error
import FlatCodec.Item
import FlatCodec.Limits

namespace FlatCodec

def tooLong (category : String) (n : Nat) : List EncodeError :=
  if maxCount < n then [.lengthExceedsLimit category n maxCount] else []

def tooHigh (discriminant : Nat) : List EncodeError :=
  if maxDiscriminant < discriminant then
    [.discriminantExceedsLimit discriminant maxDiscriminant]
  else []

def tooDeep (limit levels : Nat) : List EncodeError :=
  if limit ≤ levels then [.depthExceeded limit] else []

/-- What is wrong with an item itself, with so many levels around it, in the order in which it is
looked at: the count or the discriminant first, then the level. What lies inside is left out. -/
def Item.ownViolations (limit levels : Nat) : Item → List EncodeError
  | number .. => []
  | bool _ => []
  | text s => tooLong "text" s.utf8ByteSize
  | sequence elements => tooLong "sequence" elements.length ++ tooDeep limit levels
  | union d _ => tooHigh d ++ tooDeep limit levels
  | composite _ => tooDeep limit levels

section Levels

variable {limit levels max : Nat}

@[simp] theorem depthExceeded_mem_tooDeep_iff :
    .depthExceeded max ∈ tooDeep limit levels ↔ limit ≤ levels ∧ max = limit := by
  unfold tooDeep
  split <;> simp [*]

@[simp] theorem depthExceeded_notMem_tooLong {category : String} {n : Nat} :
    .depthExceeded max ∉ tooLong category n := by
  unfold tooLong
  split <;> simp

@[simp] theorem depthExceeded_notMem_tooHigh {d : Nat} : .depthExceeded max ∉ tooHigh d := by
  unfold tooHigh
  split <;> simp

/-- A level is missed under the limit that was set, wherever it is missed. -/
theorem Item.limit_of_mem_ownViolations {i : Item}
    (missed : .depthExceeded max ∈ i.ownViolations limit levels) : max = limit := by
  cases i with
  | number k bits => simp [ownViolations] at missed
  | bool b => simp [ownViolations] at missed
  | text s => simp [ownViolations] at missed
  | sequence elements => exact (by simpa [ownViolations] using missed : _ ∧ _).2
  | union d payload => exact (by simpa [ownViolations] using missed : _ ∧ _).2
  | composite fields => exact (by simpa [ownViolations] using missed : _ ∧ _).2

end Levels

end FlatCodec
