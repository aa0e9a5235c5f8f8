import FlatCodec.Decoder
import FlatCodec.Proofs.Settlement
import FlatCodec.Sample

namespace FlatCodec

open Reader

namespace Decoder

variable {C : Catalogue} {limit : Nat} {start : Reader}

/-- A decoder that has only read on from where it was started, with no level open. -/
structure Behind (start : Reader) (s : Decoder) : Prop where
  read : ∃ part, Consumed start part s.state
  closed : s.depth = 0

private theorem lift_reads (limit : Nat) {α : Type} {x : Decoding α} {y : Reading α}
    (performs : Performs limit 0 x y) {s : Marked Decoder} (closed : s.current.depth = 0) :
    ∃ part r, Consumed s.current.state part r ∧
      stateOf (Marked.lift x s) = ⟨⟨r, 0⟩, s.marks⟩ := by
  obtain ⟨⟨place, depth⟩, marks⟩ := s
  obtain rfl : depth = 0 := closed
  obtain ⟨part, consumed⟩ := performs.sequential.consumes place
  refine ⟨part, _, consumed, ?_⟩
  rw [Marked.stateOf_lift, performs.run, stateOf_mapState]

/-- Looking for the end is no reading, and leaves the decoder where it is. -/
theorem finish_run (s : Marked Decoder) :
    Step.run (C := C) limit .finish s =
      match s.current.state.finish with
      | .ok _ => .ok (.raw .done) s
      | .error e => .error e s := by
  have looked : (get : EStateM DecodeError (Marked Decoder) _) s = .ok s s := rfl
  rw [Step.run, bind_of_ok looked]
  cases s.current.state.finish <;> rfl

/-- A step reads on from where the decoder is, marks that place or returns to a mark; whichever way
it ends, all levels are closed again. -/
theorem Step.run_cases (step : Step C) {s : Marked Decoder} (closed : s.current.depth = 0) :
    (∃ part r, Consumed s.current.state part r ∧
      stateOf (step.run limit s) = ⟨⟨r, 0⟩, s.marks⟩) ∨
    (step = .raw .save ∧ stateOf (step.run limit s) = s.save) ∨
    (step = .raw .restore ∧ stateOf (step.run limit s) = s.restore) := by
  cases step with
  | decode t =>
    rw [Step.run, stateOf_map]
    exact .inl (lift_reads limit (Data.decodeInto_performs limit _) closed)
  | decodeInto slot =>
    rw [Step.run, stateOf_map]
    exact .inl (lift_reads limit (Data.decodeInto_performs limit slot) closed)
  | field slot =>
    rw [Step.run, stateOf_map]
    exact .inl (lift_reads limit (Data.decodeInto_performs limit slot) closed)
  | finish =>
    refine .inl ⟨[], s.current.state, consumed_nil_iff.mpr rfl, ?_⟩
    rw [finish_run, ← closed]
    cases s.current.state.finish <;> rfl
  | raw step =>
    rw [Step.run, stateOf_map]
    cases step with
    | byte context =>
      rw [Reader.Step.run, stateOf_map]
      exact .inl (lift_reads limit (.reading (.byte context)) closed)
    | count context =>
      rw [Reader.Step.run, stateOf_map]
      exact .inl (lift_reads limit (.bind (.reading (.byte context)) fun _ => .answer _) closed)
    | bytes n context =>
      rw [Reader.Step.run, stateOf_map]
      exact .inl (lift_reads limit (.reading (.bytes n context)) closed)
    | save => exact .inr (.inl ⟨rfl, rfl⟩)
    | restore => exact .inr (.inr ⟨rfl, rfl⟩)

theorem Step.all_behind (step : Step C) {s : Marked Decoder} (all : s.All (Behind start)) :
    (stateOf (step.run limit s)).All (Behind start) := by
  obtain ⟨part, r, consumed, reads⟩ | ⟨-, saves⟩ | ⟨-, restores⟩ := step.run_cases all.1.closed
  · rw [reads]
    obtain ⟨before, read⟩ := all.1.read
    exact ⟨⟨⟨before ++ part, read.trans consumed⟩, rfl⟩, all.2⟩
  · rw [saves]
    exact all.save
  · rw [restores]
    exact all.restore

theorem after_all_behind (history : List (Step C)) (start : Reader) :
    (after (Step.run limit) history ⟨⟨start, 0⟩, []⟩).All (Behind start) := by
  have begins : Marked.All (Behind start) ⟨⟨start, 0⟩, []⟩ :=
    .start ⟨⟨[], consumed_nil_iff.mpr rfl⟩, rfl⟩
  exact after_invariant (fun step s => step.all_behind) history begins

/-- Only the return to a mark leads back. -/
theorem Step.position_le (step : Step C) {s : Marked Decoder} (closed : s.current.depth = 0)
    (onward : step ≠ .raw .restore) :
    s.current.state.position ≤ (stateOf (step.run limit s)).current.state.position := by
  obtain ⟨part, r, consumed, reads⟩ | ⟨-, saves⟩ | ⟨restoring, -⟩ := step.run_cases closed
  · rw [reads, consumed.position]
    exact Nat.le_add_right _ _
  · rw [saves]
    exact Nat.le_refl _
  · exact absurd restoring onward

/-- With no level open, decoding a value is reading it from where the decoder is. -/
theorem decode_eq (t : Ty C.Name) (r : Reader) (marks : List Decoder) :
    Step.run limit (.decode t) ⟨⟨r, 0⟩, marks⟩ =
      mapState (⟨⟨·, 0⟩, marks⟩) ((.value <$> Data.read limit t) r) := by
  have performed := (Data.decodeInto_performs limit (Data.initial t)).run r
  simp only [Step.run, Functor.map, EStateM.map, Marked.lift, performed, Data.read]
  cases Data.readInto limit (Data.initial t) r <;> rfl

/-- A value is decoded from the bytes that are left as it is from these bytes alone. -/
theorem decode_relative (t : Ty C.Name) {s : Marked Decoder} (closed : s.current.depth = 0) :
    let fresh := Data.read limit t (ofBytes s.current.state.rest)
    verdictOf (Step.run limit (.decode t) s) = (verdictOf fresh).map .value ∧
      (stateOf (Step.run limit (.decode t) s)).current.state.position =
        s.current.state.position + (stateOf fresh).position := by
  obtain ⟨⟨place, depth⟩, marks⟩ := s
  obtain rfl : depth = 0 := closed
  have relative := (Data.readInto_sequential limit (Data.initial t)).relative place
  rw [decode_eq]
  refine ⟨?_, ?_⟩
  · rw [verdictOf_mapState, verdictOf_map, Data.read, relative, verdictOf_mapState]
  · rw [stateOf_mapState, stateOf_map, Data.read, relative, stateOf_mapState]

/-- Wherever a decoder was started and whatever it went through, it stands between there and the end
with no level open, and no step but the return to a mark leads back. Decoding a value comes out
there as it does on the bytes that are left alone, and moves on by as many bytes whether it succeeds
or fails. The end is found exactly at the end. -/
theorem steps_relative {bytes : List UInt8} {offset : Nat}
    (located : Reader.at? bytes offset = .ok start) (limit : Nat) (history : List (Step C)) :
    let s := after (Step.run limit) history ⟨⟨start, 0⟩, []⟩
    let position := s.current.state.position
    (offset ≤ position ∧ position ≤ bytes.length ∧
      s.current.state.rest = bytes.drop position ∧ s.current.depth = 0) ∧
    (∀ step : Step C, step ≠ .raw .restore →
      position ≤ (stateOf (step.run limit s)).current.state.position) ∧
    (∀ t : Ty C.Name,
      let fresh := Data.read limit t (ofBytes (bytes.drop position))
      verdictOf (Step.run limit (.decode t) s) = (verdictOf fresh).map .value ∧
        (stateOf (Step.run limit (.decode t) s)).current.state.position =
          position + (stateOf fresh).position) ∧
    verdictOf (Step.run (C := C) limit .finish s) =
      if position = bytes.length then .ok (.raw .done)
      else .error (.trailingBytes (bytes.length - position)) := by
  intro s position
  have here : Behind start s.current := (after_all_behind history start).1
  obtain ⟨part, consumed⟩ := here.read
  obtain ⟨onward, inside, rest⟩ := consumed.within located
  refine ⟨⟨onward, inside, rest, here.closed⟩, ?_, ?_, ?_⟩
  · intro step other
    exact step.position_le here.closed other
  · intro t
    rw [← rest]
    exact decode_relative t here.closed
  · -- The end is looked for in the bytes that are left, which are those behind the position.
    have left : s.current.state.remaining = bytes.length - position := by
      rw [remaining, rest, List.length_drop]
    rw [finish_run, finish, left, rest]
    by_cases ended : position = bytes.length
    · have nothing : bytes.drop position = [] := by rw [ended, List.drop_length]
      rw [if_pos ended, nothing]
      rfl
    · have more : ¬ (bytes.drop position).isEmpty := by
        rw [List.isEmpty_iff, List.drop_eq_nil_iff]
        omega
      rw [if_neg ended, if_neg more]
      rfl

/-- A decode that fails two levels in, and then a value that is read, given back and read again. -/
theorem steps_relative_sample :
    let run := Step.run (C := sample) 3
    let history := [.decode (.seq (.option .bool)), .raw .save, .decode (.option .bool),
      .raw .restore]
    let s := after run history ⟨⟨⟨1, [2, 1, 5, 1, 1]⟩, 0⟩, []⟩
    Reader.at? [9, 2, 1, 5, 1, 1] 1 = .ok ⟨1, [2, 1, 5, 1, 1]⟩ ∧
    (s.current.state.position = 4 ∧ s.current.depth = 0) ∧
    4 ≤ (stateOf (run (.raw .save) s)).current.state.position ∧
    (verdictOf (run (.decode (.option .bool)) s) =
        .ok (.value (.present (.bool true) : Value sample (.option .bool))) ∧
      (stateOf (run (.decode (.option .bool)) s)).current.state.position = 6) ∧
    verdictOf (run .finish s) = .error (.trailingBytes 2) := by
  intro run history s
  have located : Reader.at? [9, 2, 1, 5, 1, 1] 1 = .ok ⟨1, [2, 1, 5, 1, 1]⟩ := rfl
  have here : s.current.state.position = 4 := rfl
  obtain ⟨⟨-, -, -, closed⟩, onward, decodes, ended⟩ := steps_relative located 3 history
  obtain ⟨value, moved⟩ := decodes (.option .bool)
  exact ⟨located, ⟨here, closed⟩, onward (.raw .save) (by simp), ⟨value, moved⟩, ended⟩

end Decoder

end FlatCodec
