import FlatCodec.Encoder
import FlatCodec.Proofs.Emission

namespace FlatCodec

namespace Encoder

variable {C : Catalogue} {limit : Nat}

/-- Every step closes the levels that it opens, whichever way it ends. -/
theorem Step.run_depth (step : Step C) (s : Encoder) :
    (stateOf (step.run limit s)).depth = s.depth := by
  obtain ⟨buffer, opened⟩ := s
  cases step with
  | encode v =>
    rw [Step.run, Item.encode_run]
    cases Item.fault? limit opened v.view <;> rfl
  | field v =>
    rw [Step.run, Item.write_run]
    cases Item.fault? limit opened v.view <;> rfl
  | raw step =>
    rw [Step.run, Leveled.lift_run]
    cases step.run buffer <;> rfl

theorem after_depth (history : List (Step C)) (s : Encoder) :
    (after (Step.run limit) history s).depth = s.depth := by
  refine after_invariant (I := fun later : Encoder => later.depth = s.depth) ?_ history rfl
  intro step later same
  rw [step.run_depth, same]

/-- What the past of an encoder leaves for the next step is a buffer alone. -/
theorem after_eq (history : List (Step C)) (buffer : Buffer) :
    after (Step.run limit) history ⟨buffer, 0⟩ =
      ⟨(after (Step.run limit) history ⟨buffer, 0⟩).state, 0⟩ :=
  congrArg (Leveled.mk _) (after_depth history ⟨buffer, 0⟩)

/-- With no level open, encoding a value behind a buffer comes out as encoding it by itself does. -/
theorem encode_run (options : EncodeOptions) {t : Ty C.Name} (v : Value C t) (buffer : Buffer) :
    Step.run options.maxDepth (.encode v) ⟨buffer, 0⟩ =
      match v.toBytesWith options with
      | .ok bytes => .ok () ⟨buffer ++ bytes, 0⟩
      | .error e => .error e ⟨buffer, 0⟩ :=
  Item.encode_eq v.view buffer

theorem encodeInto_eq {t : Ty C.Name} (v : Value C t) (buffer : Buffer) :
    v.encodeInto buffer =
      match v.toBytes with
      | .ok bytes => .ok bytes.length (buffer ++ bytes)
      | .error e => .error e buffer := by
  have read : (get : Writing Buffer) buffer = .ok buffer buffer := rfl
  rw [Data.encodeInto, bind_of_ok read]
  rw [bind_apply, Leveled.fresh, Item.encode_eq, Data.toBytes, Data.toBytesWith]
  cases v.view.toBytes defaultMaxDepth with
  | error e => rfl
  | ok bytes =>
    have grown : (buffer ++ bytes).size - buffer.size = bytes.length := by
      rw [Buffer.size_append, Nat.add_sub_cancel_left]
    exact congrArg (EStateM.Result.ok · (buffer ++ bytes)) grown

/-- Whatever an encoder went through, no level is open in it, and a step that encodes a value
comes out as encoding the value by itself does: its bytes are appended, or there is the same
error and nothing has happened. A failed field leaves bytes that only the value and the limit
decide. So a value is appended to a buffer whole or not at all. -/
theorem steps_atomic (C : Catalogue) (options : EncodeOptions) :
    (∀ (history : List (Step C)) (buffer : Buffer),
      let s := after (Step.run options.maxDepth) history ⟨buffer, 0⟩
      s.depth = 0 ∧
      ∀ {t : Ty C.Name} (v : Value C t),
        Step.run options.maxDepth (.encode v) s =
          match v.toBytesWith options with
          | .ok bytes => .ok () ⟨s.state ++ bytes, 0⟩
          | .error e => .error e ⟨s.state, 0⟩) ∧
    (∀ {t : Ty C.Name} (v : Value C t), ∃ left : List UInt8,
      ∀ (history : List (Step C)) (buffer : Buffer),
        let s := after (Step.run options.maxDepth) history ⟨buffer, 0⟩
        Step.run options.maxDepth (.field v) s =
          match v.toBytesWith options with
          | .ok bytes => .ok () ⟨s.state ++ bytes, 0⟩
          | .error e => .error e ⟨s.state ++ left, 0⟩) ∧
    ∀ {t : Ty C.Name} (v : Value C t) (buffer : Buffer),
      v.encodeInto buffer =
        match v.toBytes with
        | .ok bytes => .ok bytes.length (buffer ++ bytes)
        | .error e => .error e buffer := by
  refine ⟨?_, ?_, ?_⟩
  · intro history buffer s
    refine ⟨after_depth history _, ?_⟩
    intro t v
    have settled : s = ⟨s.state, 0⟩ := after_eq history buffer
    rw [settled]
    exact encode_run options v s.state
  · intro t v
    -- What a stopped writer leaves is a function of the value, so it is named before the history.
    refine ⟨Item.emitted options.maxDepth 0 v.view, ?_⟩
    intro history buffer s
    have settled : s = ⟨s.state, 0⟩ := after_eq history buffer
    rw [settled]
    exact Item.write_eq v.view s.state
  · intro t v buffer
    exact encodeInto_eq v buffer

end Encoder

end FlatCodec
