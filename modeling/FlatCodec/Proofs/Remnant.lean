import FlatCodec.Proofs.FirstViolation
import FlatCodec.Proofs.Stall
import FlatCodec.Sample

namespace FlatCodec

open Reader Item

namespace Encoder

variable {C : Catalogue} {t : Ty C.Name} {limit : Nat}

/-- A failed encoding never leaves bytes that decode. What a failed field has put behind a buffer is
read under the same limit to its last byte and is then missing something: the level that was too
many, or the count or the tag that was refused. -/
theorem failed_field_undecodable {v : Value C t} {buffer : Buffer} {e : EncodeError} {s : Encoder}
    (failed : Step.run limit (.field v) ⟨buffer, 0⟩ = .error e s) (slot : Value C t) :
    ∃ failure : DecodeError,
      Data.readInto limit slot ⟨buffer.size, s.state.toList.drop buffer.size⟩ =
        .error failure ⟨s.state.size, []⟩ ∧
      Data.fromBytesIntoWith { offset := buffer.size, maxDepth := limit } slot s.state.toList =
        .error failure ∧
      match e with
      | .depthExceeded _ => failure = .depthExceeded limit
      | .lengthExceedsLimit category _ _ => failure = .outOfBounds (category ++ " length") 1 0
      | .discriminantExceedsLimit _ _ => failure = .outOfBounds "union tag" 1 0 := by
  have run : Step.run limit (.field v) ⟨buffer, 0⟩ = _ := write_run v.view buffer
  rw [run] at failed
  cases fault : v.view.fault? limit 0 with
  | none => simp [fault, verdict] at failed
  | some e' =>
    obtain ⟨rfl, rfl⟩ : e' = e ∧ ⟨buffer ++ emitted limit 0 v.view, 0⟩ = s := by
      simpa [fault, verdict] using failed
    have left : (buffer ++ emitted limit 0 v.view).toList.drop buffer.size =
        emitted limit 0 v.view := by simp
    have read := Data.readInto_of_emitted fault (.inr rfl) slot buffer.size
    rw [List.append_nil] at read
    have located : Reader.at? (buffer ++ emitted limit 0 v.view).toList buffer.size =
        .ok ⟨buffer.size, emitted limit 0 v.view⟩ :=
      at?_eq_ok_iff.mpr ⟨by simp, by rw [left]⟩
    refine ⟨e'.echo, ?_, ?_, ?_⟩
    · rw [left, Buffer.size_append]
      exact read
    · rw [Data.fromBytesIntoWith_eq located, read]
    · cases e' with
      | lengthExceedsLimit category len max => rfl
      | discriminantExceedsLimit d max => rfl
      | depthExceeded max =>
        obtain ⟨n, -, missed⟩ := List.mem_flatMap.mp (Data.mem_violations_of_fault? fault)
        obtain rfl := limit_of_mem_ownViolations missed
        rfl

/-- Of two uniform unions the second has an index that no tag says, and of two options the second is
absent, which takes a level that is not left. -/
theorem failed_field_undecodable_sample :
    let wides : Value sample (.seq (.named .wide)) :=
      .seq (.ofList [.named (.uniform 5 (.number _ 7)), .named (.uniform 256 (.number _ 7))])
    let options : Value sample (.seq (.option .bool)) :=
      .seq (.ofList [.present (.bool true), .absent])
    (Step.run 2 (.field wides) ⟨#[], 0⟩ =
        .error (.discriminantExceedsLimit 256 255) ⟨#[2, 5, 7], 0⟩ ∧
      Data.readInto 2 (Data.initial (C := sample) (.seq (.named .wide))) (ofBytes [2, 5, 7]) =
        .error (.outOfBounds "union tag" 1 0) ⟨3, []⟩) ∧
    (Step.run 2 (.field options) ⟨#[9], 0⟩ =
        .error (.depthExceeded 2) ⟨#[9, 2, 1, 1, 0], 0⟩ ∧
      Data.fromBytesIntoWith { offset := 1, maxDepth := 2 } options [9, 2, 1, 1, 0] =
        .error (.depthExceeded 2)) := by
  intro wides options
  have high : Step.run 2 (.field wides) ⟨#[], 0⟩ =
      .error (.discriminantExceedsLimit 256 255) ⟨#[2, 5, 7], 0⟩ := rfl
  have deep : Step.run 2 (.field options) ⟨#[9], 0⟩ =
      .error (.depthExceeded 2) ⟨#[9, 2, 1, 1, 0], 0⟩ := rfl
  obtain ⟨_, untagged, -, rfl⟩ := failed_field_undecodable high (Data.initial _)
  obtain ⟨_, -, missed, rfl⟩ := failed_field_undecodable deep options
  exact ⟨⟨high, untagged⟩, deep, missed⟩

end Encoder

end FlatCodec
