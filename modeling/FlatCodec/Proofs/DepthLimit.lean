import FlatCodec.Proofs.Occurrence
import FlatCodec.Proofs.Stall

namespace FlatCodec

open Reader Item

namespace Data

variable {C : Catalogue} {t : Ty C.Name} {v : Value C t} {limit : Nat} {bytes : List UInt8}

/-- The bytes of a value that is deeper than the limit are refused where the level is missed. -/
theorem readInto_of_too_deep (fits : v.view.Fits) (deep : limit < v.view.depth)
    (slot : Value C t) :
    ∃ r, readInto limit slot (ofBytes v.view.layout) = .error (.depthExceeded limit) r := by
  have fault := fits.fault?_of_too_deep (Nat.zero_le limit) (by omega)
  -- Reading meets the bytes that writing gave up behind, and then the level it gave up at.
  obtain ⟨left, whole⟩ := @emitted_isPrefix_layout limit 0 v.view
  rw [← whole]
  exact ⟨_, readInto_of_emitted fault (.inl rfl) slot 0⟩

/-- Both directions enforce one limit: where a value's depth is within it, its bytes are put out
and read back under it, and where the depth is beyond it, both end in the same failure. -/
theorem depth_limit_agrees {options : EncodeOptions}
    (written : v.toBytesWith options = .ok bytes) (limit : Nat) (slot : Value C t) :
    (v.view.depth ≤ limit →
      v.toBytesWith { maxDepth := limit } = .ok bytes ∧
        fromBytesIntoWith { maxDepth := limit } slot bytes = .ok (slot.merge v.refresh)) ∧
    (limit < v.view.depth →
      v.toBytesWith { maxDepth := limit } = .error (.depthExceeded limit) ∧
        fromBytesIntoWith { maxDepth := limit } slot bytes = .error (.depthExceeded limit)) := by
  obtain ⟨fits, -, rfl⟩ := toBytes_eq_ok_iff.mp written
  refine ⟨?_, ?_⟩
  · intro shallow
    have again : v.toBytesWith { maxDepth := limit } = .ok v.view.layout :=
      toBytes_eq_ok_iff.mpr ⟨fits, shallow, rfl⟩
    have read := readInto_of_toBytesWith again slot
    exact ⟨again, fromBytesIntoWith_eq_ok_iff.mpr ⟨_, read, rfl⟩⟩
  · intro deep
    obtain ⟨r, read⟩ := readInto_of_too_deep fits deep slot
    refine ⟨?_, ?_⟩
    · rw [toBytesWith, toBytes_eq, fits.fault?_of_too_deep (Nat.zero_le limit) (by omega)]
    · rw [fromBytesIntoWith_eq (at?_zero _), read]

/-- A list with an absent element is three levels deep, the level of the absent payload included:
three are enough in both directions, two in neither. -/
theorem depth_limit_agrees_absent :
    (toBytesWith (C := sample) { maxDepth := 3 } (.seq (.ofList [.present (.bool true), .absent])) =
        .ok [2, 1, 1, 0] ∧
      fromBytesIntoWith (C := sample) { maxDepth := 3 } (.seq (.ofList [.absent])) [2, 1, 1, 0] =
        .ok (.seq (.ofList [.present (.bool true), .absent]))) ∧
    (toBytesWith (C := sample) { maxDepth := 2 } (.seq (.ofList [.present (.bool true), .absent])) =
        .error (.depthExceeded 2) ∧
      fromBytesIntoWith (C := sample) { maxDepth := 2 } (.seq (.ofList [.absent (t := .bool)]))
          [2, 1, 1, 0] =
        .error (.depthExceeded 2)) := by
  let v : Value sample (.seq (.option .bool)) := .seq (.ofList [.present (.bool true), .absent])
  have written : v.toBytesWith {} = .ok [2, 1, 1, 0] := rfl
  have agrees := depth_limit_agrees written
  exact ⟨(agrees 3 _).1 (by decide), (agrees 2 _).2 (by decide)⟩

end Data

end FlatCodec
