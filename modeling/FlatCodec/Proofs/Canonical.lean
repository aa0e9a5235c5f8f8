import FlatCodec.Decoder
import FlatCodec.Encoder
import FlatCodec.Proofs.Occurrence
import FlatCodec.Proofs.Span

namespace FlatCodec

open Reader Item

namespace Data

variable {C : Catalogue} {limit opened room : Nat} {inner : Slots C} {r r' : Reader}

/-- Whatever is read at a node with `opened` levels around it, its byte form is what was
consumed, and nothing is wrong with it. -/
def Canonical (limit opened : Nat) (inner : Slots C) : Prop :=
  ∀ (t : Ty C.Name) (slot v : Value C t) (r r' : Reader),
    inner t slot r = .ok v r' → v.view.Spans limit opened r r'

theorem readElements_spans (canonical : Canonical limit opened inner) {t : Ty C.Name} {n : Nat}
    {slots vs : Elements C t} (h : readElements inner n slots r = .ok vs r') :
    vs.view.length = n ∧ AllSpan limit opened vs.view r r' := by
  induction n generalizing slots vs r with
  | zero =>
    obtain ⟨rfl, rfl⟩ : Data.nil = vs ∧ r = r' := by simpa [readElements] using h
    exact ⟨rfl, allSpan_nil_iff.mpr rfl⟩
  | succ n ih =>
    rw [readElements_succ] at h
    obtain ⟨v, m, first, h⟩ := bind_eq_ok.mp h
    obtain ⟨rest, others, rfl⟩ := bind_pure_eq_ok.mp h
    obtain ⟨len, tail⟩ := ih others
    have head := canonical _ _ _ _ _ first
    exact ⟨by simp [view, len], allSpan_cons_iff.mpr ⟨m, head, tail⟩⟩

theorem readFields_spans (canonical : Canonical limit opened inner) {fs : List (Field C.Name)}
    {slots vs : Data C (.fields fs)} (h : readFields inner fs slots r = .ok vs r') :
    AllSpan limit opened vs.view r r' := by
  induction fs generalizing r with
  | nil =>
    cases slots
    obtain ⟨rfl, rfl⟩ : Data.done = vs ∧ r = r' := by simpa [readFields] using h
    exact allSpan_nil_iff.mpr rfl
  | cons f fs ih =>
    cases slots with
    | visited slot slots =>
      obtain ⟨v, m, first, h⟩ := bind_eq_ok.mp h
      obtain ⟨rest, others, rfl⟩ := bind_pure_eq_ok.mp h
      exact allSpan_cons_iff.mpr ⟨m, canonical _ _ _ _ _ first, ih others⟩
    | hidden slot slots =>
      obtain ⟨rest, others, rfl⟩ := bind_pure_eq_ok.mp h
      exact ih others
    | flagged flag slot slots =>
      obtain ⟨b, m, read, h⟩ := bind_eq_ok.mp h
      have said : Spans limit opened (.bool b) r m :=
        spans_bool_iff.mpr (readBool_eq_ok_iff.mp read)
      cases b with
      | true =>
        obtain ⟨v, m', first, h⟩ := bind_eq_ok.mp h
        obtain ⟨rest, others, rfl⟩ := bind_pure_eq_ok.mp h
        have tail := allSpan_cons_iff.mpr ⟨m', canonical _ _ _ _ _ first, ih others⟩
        exact allSpan_cons_iff.mpr ⟨m, said, tail⟩
      | false =>
        obtain ⟨rest, others, rfl⟩ := bind_pure_eq_ok.mp h
        exact allSpan_cons_iff.mpr ⟨m, said, ih others⟩

theorem readDeclAlternative_spans (canonical : Canonical limit opened inner) {d : Decl C.Name}
    {i : Nat} {v : Data C (.body d)} (h : readDeclAlternative inner d i r = .ok v r') :
    ∃ payload : Item, v.view = .union i payload ∧ payload.Spans limit opened r r' := by
  cases d with
  | record fs => simp [readDeclAlternative] at h
  | union k alternatives =>
    rw [readDeclAlternative] at h
    split at h
    · rename_i known
      obtain ⟨w, read, rfl⟩ := bind_pure_eq_ok.mp h
      exact ⟨w.view, rfl, canonical _ _ _ _ _ read⟩
    · simp at h
  | uniform n t =>
    obtain ⟨w, read, rfl⟩ := bind_pure_eq_ok.mp h
    exact ⟨w.view, rfl, canonical _ _ _ _ _ read⟩

theorem readAlternative_spans (canonical : Canonical limit opened inner) {t : Ty C.Name} {i : Nat}
    {v : Value C t} (h : readAlternative inner t i r = .ok v r') :
    ∃ payload : Item, v.view = .union i payload ∧ payload.Spans limit opened r r' := by
  cases t with
  | option t =>
    rcases i with _ | _ | i
    · obtain ⟨w, read, rfl⟩ := bind_pure_eq_ok.mp h
      cases w
      exact ⟨.composite [], rfl, canonical _ _ _ _ _ read⟩
    · obtain ⟨w, read, rfl⟩ := bind_pure_eq_ok.mp h
      exact ⟨w.view, rfl, canonical _ _ _ _ _ read⟩
    · simp [readAlternative] at h
  | oneOf k alternatives =>
    rw [readAlternative] at h
    split at h
    · rename_i known
      obtain ⟨w, read, rfl⟩ := bind_pure_eq_ok.mp h
      exact ⟨w.view, rfl, canonical _ _ _ _ _ read⟩
    · simp at h
  | named n =>
    obtain ⟨w, read, rfl⟩ := bind_pure_eq_ok.mp h
    exact readDeclAlternative_spans canonical read
  | _ => simp [readAlternative] at h

/-- How values are read one level further in, when `room` levels are left. -/
def CanonicalFurtherIn (C : Catalogue) (limit opened room : Nat) : Prop :=
  ∀ n, room = n + 1 → Canonical limit (opened + 1) (readWithin (C := C) limit n)

theorem readUnion_spans (levels : opened + room = limit) {α : Type} (shown : α → Item)
    {alternatives : Nat} {payload : Slots C → Nat → Reading α} {a : α}
    (alternative : ∀ n i m, room = n + 1 → payload (readWithin limit n) i m = .ok a r' →
      ∃ p : Item, shown a = .union i p ∧ p.Spans limit (opened + 1) m r')
    (h : readUnion limit (furtherIn limit room) alternatives payload r = .ok a r') :
    (shown a).Spans limit opened r r' := by
  obtain ⟨i, m, tag, -, n, deeper, read⟩ := readUnion_eq_ok_iff.mp h
  obtain ⟨p, seen, content⟩ := alternative n i m deeper read
  have free : opened < limit := by omega
  rw [seen]
  exact spans_union_iff.mpr ⟨m, tag, free, content⟩

theorem readBody_spans (levels : opened + room = limit)
    (deeper : CanonicalFurtherIn C limit opened room) {d : Decl C.Name}
    {slot v : Data C (.body d)} (h : readBody limit (furtherIn limit room) d slot r = .ok v r') :
    v.view.Spans limit opened r r' := by
  cases d with
  | record fs =>
    cases slot
    obtain ⟨n, left, h⟩ := nested_eq_ok_iff.mp h
    obtain ⟨vs, read, rfl⟩ := bind_pure_eq_ok.mp h
    have free : opened < limit := by omega
    exact spans_composite_iff.mpr ⟨free, readFields_spans (deeper n left) read⟩
  | union k alternatives =>
    exact readUnion_spans levels view
      (fun n i m left read => readDeclAlternative_spans (deeper n left) read) h
  | uniform n t =>
    exact readUnion_spans levels view
      (fun n i m left read => readDeclAlternative_spans (deeper n left) read) h

theorem readOne_spans (levels : opened + room = limit)
    (deeper : CanonicalFurtherIn C limit opened room) :
    Canonical limit opened (readOne (C := C) limit (furtherIn limit room)) := by
  intro t slot v r r' h
  -- Only a box stays at its level, so the induction on the type is for boxes alone.
  induction t generalizing r with
  | number k =>
    obtain ⟨bits, read, rfl⟩ := bind_pure_eq_ok.mp h
    exact spans_number_iff.mpr (readNumber_eq_ok_iff.mp read)
  | bool =>
    obtain ⟨b, read, rfl⟩ := bind_pure_eq_ok.mp h
    exact spans_bool_iff.mpr (readBool_eq_ok_iff.mp read)
  | text =>
    obtain ⟨s, read, rfl⟩ := bind_pure_eq_ok.mp h
    exact spans_text_iff.mpr (readText_eq_ok_iff.mp read)
  | unit =>
    obtain ⟨n, left, h⟩ := nested_eq_ok_iff.mp h
    obtain ⟨rfl, rfl⟩ : Data.unit = v ∧ r = r' := by simpa using h
    have free : opened < limit := by omega
    exact spans_composite_iff.mpr ⟨free, allSpan_nil_iff.mpr rfl⟩
  | seq t =>
    cases slot with
    | seq slots =>
      obtain ⟨len, m, counted, h⟩ := bind_eq_ok.mp h
      obtain ⟨n, left, h⟩ := nested_eq_ok_iff.mp h
      obtain ⟨vs, read, rfl⟩ := bind_pure_eq_ok.mp h
      obtain ⟨rfl, content⟩ := readElements_spans (deeper n left) read
      have free : opened < limit := by omega
      exact spans_sequence_iff.mpr ⟨m, readCount_eq_ok_iff.mp counted, free, content⟩
  | box t ih =>
    cases slot with
    | box slot =>
      obtain ⟨w, read, rfl⟩ := bind_pure_eq_ok.mp h
      exact ih _ _ _ read
  | option t =>
    exact readUnion_spans levels view
      (fun n i m left read => readAlternative_spans (deeper n left) read) h
  | oneOf k alternatives =>
    exact readUnion_spans levels view
      (fun n i m left read => readAlternative_spans (deeper n left) read) h
  | named n =>
    cases slot with
    | named slot =>
      obtain ⟨w, read, rfl⟩ := bind_pure_eq_ok.mp h
      exact readBody_spans levels deeper read

/-- Reading accepts only bytes that writing puts out under the same limit, whatever the slot. -/
theorem readWithin_spans (levels : opened + room = limit) :
    Canonical limit opened (readWithin (C := C) limit room) := by
  induction room using Nat.strongRecOn generalizing opened with
  | ind room further =>
    intro t slot v r r' read
    rw [readWithin_eq] at read
    apply readOne_spans levels _ t slot v r r' read
    intro n left
    exact further n (by omega) (by omega)

theorem toBytesWith_of_consumed {t : Ty C.Name} {slot v : Value C t}
    (h : readInto limit slot r = .ok v r') :
    v.toBytesWith { maxDepth := limit } = .ok v.view.layout ∧ Consumed r v.view.layout r' := by
  rw [readInto_eq] at h
  obtain ⟨sound, consumed⟩ := readWithin_spans (Nat.zero_add limit) t slot v r r' h
  refine ⟨?_, consumed⟩
  rw [toBytesWith, toBytes_eq, sound]

theorem toBytesWith_of_fromBytesIntoWith {t : Ty C.Name} {slot v : Value C t}
    {bytes : List UInt8} (h : fromBytesIntoWith { maxDepth := limit } slot bytes = .ok v) :
    v.toBytesWith { maxDepth := limit } = .ok bytes ∧ bytes = v.view.layout := by
  obtain ⟨r, read, ended⟩ := fromBytesIntoWith_eq_ok_iff.mp h
  obtain ⟨written, consumed⟩ := toBytesWith_of_consumed read
  have whole : bytes = v.view.layout := by
    have h := consumed.rest
    rw [ended, List.append_nil] at h
    exact h
  exact ⟨whole ▸ written, whole⟩

/-- Encoding undoes decoding: the bytes that a value was read from, whatever the slot held, are
the bytes it is written as under the same limit. So strict decoding accepts only what encoding
puts out, and never two byte strings for one value, not even under two limits. -/
theorem toBytesWith_of_readInto (t : Ty C.Name) (limit : Nat) :
    (∀ (bytes : List UInt8) (offset : Nat) (slot v : Value C t) (start r : Reader),
      Reader.at? bytes offset = .ok start → readInto limit slot start = .ok v r →
        offset ≤ r.position ∧ r.position ≤ bytes.length ∧
          v.toBytesWith { maxDepth := limit } = .ok ((bytes.take r.position).drop offset)) ∧
    (∀ (slot v : Value C t) (bytes : List UInt8),
      fromBytesIntoWith { maxDepth := limit } slot bytes = .ok v →
        v.toBytesWith { maxDepth := limit } = .ok bytes) ∧
    ∀ (slot slot' v : Value C t) (limit' : Nat) (bytes bytes' : List UInt8),
      fromBytesIntoWith { maxDepth := limit } slot bytes = .ok v →
        fromBytesIntoWith { maxDepth := limit' } slot' bytes' = .ok v → bytes = bytes' := by
  refine ⟨?_, ?_, ?_⟩
  · intro bytes offset slot v start r located read
    obtain ⟨reached, rfl⟩ := at?_eq_ok_iff.mp located
    obtain ⟨written, rest, position⟩ := toBytesWith_of_consumed read
    simp only at rest position
    have split : bytes = bytes.take offset ++ (v.view.layout ++ r.rest) := by
      rw [← rest, List.take_append_drop]
    have before : (bytes.take offset).length = offset := List.length_take_of_le reached
    have len := congrArg List.length split
    simp only [List.length_append, before] at len
    have piece : (bytes.take r.position).drop offset = v.view.layout := by
      rw [List.drop_take, rest, position, Nat.add_sub_cancel_left, List.take_left]
    exact ⟨by omega, by omega, piece ▸ written⟩
  · intro slot v bytes h
    exact (toBytesWith_of_fromBytesIntoWith h).1
  · intro slot slot' v limit' bytes bytes' h h'
    rw [(toBytesWith_of_fromBytesIntoWith h).2, (toBytesWith_of_fromBytesIntoWith h').2]

/-- A hidden text that the slot held and a body too long for its count byte, both kept by
decoding, change nothing in the bytes. -/
theorem toBytesWith_of_readInto_stale :
    (Sample.masked 5 "stale" "é").toBytesWith { maxDepth := 1 } = .ok [5, 0, 2, 195, 169] ∧
      (Sample.cond false (List.replicate 256 1)).toBytesWith { maxDepth := 1 } = .ok [0] := by
  have read : readInto 1 (Sample.masked 0 "stale" "old") ⟨1, [5, 0, 2, 195, 169, 7]⟩ =
      .ok (Sample.masked 5 "stale" "é") ⟨6, [7]⟩ := rfl
  have decoded : fromBytesIntoWith { maxDepth := 1 } (Sample.cond true (List.replicate 256 1)) [0] =
      .ok (Sample.cond false (List.replicate 256 1)) := rfl
  obtain ⟨anywhere, -, -⟩ := toBytesWith_of_readInto (C := sample) (.named .masked) 1
  obtain ⟨-, strict, -⟩ := toBytesWith_of_readInto (C := sample) (.named .cond) 1
  obtain ⟨-, -, written⟩ := anywhere [9, 5, 0, 2, 195, 169, 7] 1 _ _ _ _ rfl read
  exact ⟨written, strict _ _ _ decoded⟩

end Data

end FlatCodec
