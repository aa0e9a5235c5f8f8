import FlatCodec.Proofs.DecoderSession
import FlatCodec.Proofs.EncoderSession
import FlatCodec.Proofs.RoundTrip

namespace FlatCodec

open Reader

namespace Stream

/-- A value with the byte form that it has by itself under a limit. -/
structure Entry (C : Catalogue) (limit : Nat) where
  {t : Ty C.Name}
  value : Value C t
  form : List UInt8
  written : value.toBytesWith { maxDepth := limit } = .ok form

variable {C : Catalogue} {limit : Nat}

def formed? (limit : Nat) (v : AnyValue C) : Option (Entry C limit) :=
  match written : v.2.toBytesWith { maxDepth := limit } with
  | .ok form => some ⟨v.2, form, written⟩
  | .error _ => none

/-- The values that have a byte form, in their order. -/
def entries (limit : Nat) (values : List (AnyValue C)) : List (Entry C limit) :=
  values.filterMap (formed? limit)

/-- Byte forms in a row. -/
def forms (es : List (Entry C limit)) : List UInt8 := es.flatMap (·.form)

def encodes (values : List (AnyValue C)) : List (Encoder.Step C) :=
  values.map fun v => .encode v.2

def decodes (es : List (Entry C limit)) : List (Decoder.Step C) := es.map fun e => .decode e.t

theorem forms_cons (e : Entry C limit) (es : List (Entry C limit)) :
    forms (e :: es) = e.form ++ forms es :=
  List.flatMap_cons

theorem formed?_of_ok {v : AnyValue C} {form : List UInt8}
    (written : v.2.toBytesWith { maxDepth := limit } = .ok form) :
    formed? limit v = some ⟨v.2, form, written⟩ := by
  rw [formed?]
  split
  · rename_i other same
    obtain rfl : other = form := Except.ok.inj (same.symm.trans written)
    rfl
  · rename_i failed
    cases failed.symm.trans written

theorem formed?_of_error {v : AnyValue C} {e : EncodeError}
    (failed : v.2.toBytesWith { maxDepth := limit } = .error e) : formed? limit v = none := by
  rw [formed?]
  split
  · rename_i written
    cases written.symm.trans failed
  · rfl

/-- A failed value leaves no trace, so only the forms of the others are appended. -/
theorem after_encodes (values : List (AnyValue C)) (buffer : Buffer) :
    after (Encoder.Step.run limit) (encodes values) ⟨buffer, 0⟩ =
      ⟨buffer ++ forms (entries limit values), 0⟩ := by
  induction values generalizing buffer with
  | nil => simp [encodes, entries, forms]
  | cons v values ih =>
    have step := Encoder.encode_run { maxDepth := limit } v.2 buffer
    rw [encodes, List.map_cons, after_cons, entries, List.filterMap_cons]
    cases written : v.2.toBytesWith { maxDepth := limit } with
    | ok form =>
      rw [written] at step
      rw [formed?_of_ok written, forms_cons, ← Buffer.append_assoc, step]
      exact ih (buffer ++ form)
    | error e =>
      rw [written] at step
      rw [formed?_of_error written, step]
      exact ih buffer

/-- Where the form of a value lies next, a decoder gives the value and stands behind the form. -/
theorem decode_run (e : Entry C limit) (p : Nat) (left : List UInt8) :
    Decoder.Step.run limit (.decode e.t) ⟨⟨⟨p, e.form ++ left⟩, 0⟩, []⟩ =
      .ok (.value e.value.refresh) ⟨⟨⟨p + e.form.length, left⟩, 0⟩, []⟩ := by
  have read := Data.readInto_of_toBytesWith_append e.written (Data.initial e.t) p left
  rw [Data.initial_merge_refresh] at read
  rw [Decoder.decode_eq, Data.read, map_of_ok read, mapState_ok]

/-- Where forms lie in a row, a decoder gives their values in turn. -/
theorem session_decodes (es : List (Entry C limit)) (p : Nat) (left : List UInt8) :
    (session (Decoder.Step.run limit) (decodes es) ⟨⟨⟨p, forms es ++ left⟩, 0⟩, []⟩).map verdictOf =
      es.map fun e => .ok (.value e.value.refresh) := by
  induction es generalizing p with
  | nil => rfl
  | cons e es ih =>
    have later := ih (p + e.form.length)
    rw [decodes, List.map_cons, session_cons, forms_cons, List.append_assoc, decode_run]
    exact congrArg (_ :: ·) later

theorem after_decodes (es : List (Entry C limit)) (p : Nat) (left : List UInt8) :
    after (Decoder.Step.run limit) (decodes es) ⟨⟨⟨p, forms es ++ left⟩, 0⟩, []⟩ =
      ⟨⟨⟨p + (forms es).length, left⟩, 0⟩, []⟩ := by
  induction es generalizing p with
  | nil => rfl
  | cons e es ih =>
    have later := ih (p + e.form.length)
    rw [decodes, List.map_cons, after_cons, forms_cons, List.append_assoc, decode_run]
    rw [List.length_append, ← Nat.add_assoc]
    exact later

/-- Values are written in turn to one buffer, and those that fail are passed over. What is added
are the forms of the values that have one by themselves, and a decoder that starts where they begin
gives these values one after the other, stands behind each form in turn and finds the end after
the last. -/
theorem written_read_back (limit : Nat) (values : List (AnyValue C)) (initial : Buffer) :
    let es := entries limit values
    let encoder := after (Encoder.Step.run limit) (encodes values) ⟨initial, 0⟩
    encoder.state = initial ++ forms es ∧
    ∃ start, Reader.at? encoder.state.toList initial.size = .ok start ∧
      (session (Decoder.Step.run limit) (decodes es ++ [.finish]) ⟨⟨start, 0⟩, []⟩).map verdictOf =
        es.map (fun e => .ok (.value e.value.refresh)) ++ [.ok (.raw .done)] ∧
      (∀ v : AnyValue C, v.2.refresh.Agrees v.2) ∧
      ∀ n, (after (Decoder.Step.run limit) (decodes (es.take n))
          ⟨⟨start, 0⟩, []⟩).current.state.position =
        initial.size + (forms (es.take n)).length := by
  intro es encoder
  have grown : encoder = ⟨initial ++ forms es, 0⟩ := after_encodes values initial
  have located : Reader.at? encoder.state.toList initial.size = .ok ⟨initial.size, forms es⟩ := by
    have bytes : encoder.state.toList = initial.toList ++ forms es := by simp [grown]
    rw [bytes, ← Array.length_toList]
    refine at?_eq_ok_iff.mpr ⟨?_, ?_⟩
    · rw [List.length_append]
      exact Nat.le_add_right _ _
    · rw [List.drop_left]
  refine ⟨by rw [grown], _, located, ?_, ?_, ?_⟩
  · have given := session_decodes es initial.size []
    have ended := after_decodes es initial.size []
    rw [List.append_nil] at given ended
    rw [session_append, List.map_append, given, ended]
    rfl
  · intro v
    exact Data.refresh_agrees v.2
  · intro n
    have split : forms es = forms (es.take n) ++ forms (es.drop n) := by
      rw [forms, forms, forms, ← List.flatMap_append, List.take_append_drop]
    rw [split, after_decodes]

end Stream

end FlatCodec
