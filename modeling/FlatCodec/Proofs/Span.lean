import FlatCodec.Decoder
import FlatCodec.Item.Fault
import FlatCodec.Proofs.Acceptance
import FlatCodec.Proofs.Consumption
import FlatCodec.Proofs.Levels

namespace FlatCodec

open Reader

namespace Item

/-- Between two places lies the byte form of an item that has nothing wrong with it, at a node
with `opened` levels around it. -/
def Spans (limit opened : Nat) (i : Item) (r r' : Reader) : Prop :=
  fault? limit opened i = none ∧ Consumed r i.layout r'

def AllSpan (limit opened : Nat) (items : List Item) (r r' : Reader) : Prop :=
  faultAll? limit opened items = none ∧ Consumed r (layoutAll items) r'

variable {limit opened : Nat} {r r' : Reader}

theorem spans_number_iff {k : Number} {bits : k.Bits} :
    Spans limit opened (.number k bits) r r' ↔ Consumed r (k.toBytes bits) r' := by
  simp [Spans, fault?, layout]

theorem spans_bool_iff {b : Bool} :
    Spans limit opened (.bool b) r r' ↔ Consumed r [if b then 1 else 0] r' := by
  simp [Spans, fault?, layout]

theorem spans_text_iff {s : String} :
    Spans limit opened (.text s) r r' ↔
      s.utf8ByteSize ≤ maxCount ∧ Consumed r (UInt8.ofNat s.utf8ByteSize :: utf8Bytes s) r' := by
  rw [Spans, fault?_text_eq_none_iff, layout]

/-- A head byte that fits, then a level with its content, where the cut is a place too. -/
private theorem headed_iff {fits free sound : Prop} {head : UInt8} {content : List UInt8} :
    (fits ∧ free ∧ sound) ∧ Consumed r (head :: content) r' ↔
      ∃ m, (fits ∧ Consumed r [head] m) ∧ free ∧ sound ∧ Consumed m content r' := by
  rw [consumed_cons_iff]
  refine ⟨?_, ?_⟩
  · intro h
    obtain ⟨⟨small, room, inner⟩, m, first, second⟩ := h
    exact ⟨m, ⟨small, first⟩, room, inner, second⟩
  · intro h
    obtain ⟨m, ⟨small, first⟩, room, inner, second⟩ := h
    exact ⟨⟨small, room, inner⟩, m, first, second⟩

theorem spans_sequence_iff {elements : List Item} :
    Spans limit opened (.sequence elements) r r' ↔
      ∃ m, (elements.length ≤ maxCount ∧ Consumed r [UInt8.ofNat elements.length] m) ∧
        opened < limit ∧ AllSpan limit (opened + 1) elements m r' := by
  rw [Spans, fault?_sequence_eq_none_iff, layout]
  exact headed_iff

theorem spans_union_iff {d : Nat} {payload : Item} :
    Spans limit opened (.union d payload) r r' ↔
      ∃ m, (d ≤ maxDiscriminant ∧ Consumed r [UInt8.ofNat d] m) ∧
        opened < limit ∧ Spans limit (opened + 1) payload m r' := by
  rw [Spans, fault?_union_eq_none_iff, layout]
  exact headed_iff

theorem spans_composite_iff {fields : List Item} :
    Spans limit opened (.composite fields) r r' ↔
      opened < limit ∧ AllSpan limit (opened + 1) fields r r' := by
  rw [Spans, AllSpan, fault?_composite_eq_none_iff, layout, and_assoc]

theorem allSpan_nil_iff : AllSpan limit opened [] r r' ↔ r' = r := by
  simp [AllSpan, faultAll?, layoutAll, consumed_nil_iff]

theorem allSpan_cons_iff {i : Item} {is : List Item} :
    AllSpan limit opened (i :: is) r r' ↔
      ∃ m, Spans limit opened i r m ∧ AllSpan limit opened is m r' := by
  rw [AllSpan, faultAll?_cons_eq_none_iff, layoutAll, consumed_append_iff]
  refine ⟨?_, ?_⟩
  · intro h
    obtain ⟨⟨head, tail⟩, m, first, second⟩ := h
    exact ⟨m, ⟨head, first⟩, tail, second⟩
  · intro h
    obtain ⟨m, ⟨head, first⟩, tail, second⟩ := h
    exact ⟨⟨head, tail⟩, m, first, second⟩

theorem toBytes_eq_ok_iff_spans {i : Item} {bytes : List UInt8} :
    i.toBytes limit = .ok bytes ↔
      bytes = i.layout ∧ Spans limit 0 i (ofBytes bytes) ⟨bytes.length, []⟩ := by
  rw [toBytes_eq]
  refine ⟨?_, ?_⟩
  · intro h
    split at h
    · rename_i sound
      obtain rfl := Except.ok.inj h
      exact ⟨rfl, sound, by simp [ofBytes], by simp [ofBytes]⟩
    · simp at h
  · intro h
    obtain ⟨rfl, sound, -⟩ := h
    rw [sound]

end Item

namespace Data

variable {C : Catalogue} {α : Type} {limit room : Nat} {r r' : Reader}

theorem nested_eq_ok_iff {body : Slots C → Reading α} {a : α} :
    nested limit (furtherIn limit room) body r = .ok a r' ↔
      ∃ n, room = n + 1 ∧ body (readWithin limit n) r = .ok a r' := by
  cases room with
  | zero => simp [furtherIn, nested]
  | succ room => simp [furtherIn, nested]

theorem readUnion_of_unknown {inner : Option (Slots C)} {alternatives : Nat}
    {payload : Slots C → Nat → Reading α} {tag : UInt8} (unknown : alternatives ≤ tag.toNat)
    (there : Consumed r [tag] r') :
    readUnion limit inner alternatives payload r = .error (.invalidTag tag alternatives) r' := by
  rw [readUnion, Cursor.reading_reader, Read.run_byte, bind_of_ok (readByte_eq_ok_iff.mpr there), if_pos unknown]
  rfl

theorem readUnion_of_known {inner : Option (Slots C)} {alternatives d : Nat}
    {payload : Slots C → Nat → Reading α} (known : d < alternatives)
    (tag : d ≤ maxDiscriminant ∧ Consumed r [UInt8.ofNat d] r') :
    readUnion limit inner alternatives payload r =
      nested limit inner (fun inner => payload inner d) r' := by
  obtain ⟨low, there⟩ := tag
  have said : (UInt8.ofNat d).toNat = d := byte_toNat_eq_iff.mpr ⟨low, rfl⟩
  rw [readUnion, Cursor.reading_reader, Read.run_byte, bind_of_ok (readByte_eq_ok_iff.mpr there), said,
    if_neg (Nat.not_le.mpr known)]

/-- A union is read by a tag below its number of alternatives and the payload that the tag
names. -/
theorem readUnion_eq_ok_iff {alternatives : Nat} {payload : Slots C → Nat → Reading α} {a : α} :
    readUnion limit (furtherIn limit room) alternatives payload r = .ok a r' ↔
      ∃ d m, (d ≤ maxDiscriminant ∧ Consumed r [UInt8.ofNat d] m) ∧ d < alternatives ∧
        ∃ n, room = n + 1 ∧ payload (readWithin limit n) d m = .ok a r' := by
  refine ⟨?_, ?_⟩
  · intro h
    obtain ⟨tag, m, read, -⟩ := bind_eq_ok.mp h
    have there := readByte_eq_ok_iff.mp read
    by_cases known : tag.toNat < alternatives
    · obtain ⟨low, spelled⟩ := byte_toNat_eq_iff.mp (rfl : tag.toNat = tag.toNat)
      rw [spelled] at there
      rw [readUnion_of_known known ⟨low, there⟩] at h
      exact ⟨tag.toNat, m, ⟨low, there⟩, known, nested_eq_ok_iff.mp h⟩
    · rw [readUnion_of_unknown (Nat.le_of_not_lt known) there] at h
      simp at h
  · intro h
    obtain ⟨d, m, tag, known, inner⟩ := h
    rw [readUnion_of_known known tag]
    exact nested_eq_ok_iff.mpr inner

/-- Decoding is reading from the offset on and then, unless bytes may be left, looking for the
end. -/
theorem fromBytesIntoWith_eq {options : DecodeOptions} {t : Ty C.Name} {slot : Value C t}
    {bytes : List UInt8} {start : Reader}
    (located : Reader.at? bytes options.offset = .ok start) :
    fromBytesIntoWith options slot bytes =
      match readInto options.maxDepth slot start with
      | .error e _ => .error e
      | .ok v r =>
        if options.allowTrailing = true ∨ r.rest = [] then .ok v
        else .error (.trailingBytes r.remaining) := by
  rw [fromBytesIntoWith, located]
  simp only [bind, Except.bind]
  cases readInto options.maxDepth slot start with
  | error e r => rfl
  | ok v r =>
    by_cases lenient : options.allowTrailing = true
    · simp [lenient, pure, Except.pure]
    · by_cases ended : r.rest = []
      · simp [lenient, ended, finish, pure, Except.pure]
      · simp [lenient, ended, finish]

/-- Readings that only differ in what they make of the value decode so too, from any offset and
whether or not bytes may be left. -/
theorem fromBytesIntoWith_map {t u : Ty C.Name} {options : DecodeOptions} {slot : Value C t}
    {slot' : Value C u} {f : Value C t → Value C u}
    (same : readInto options.maxDepth slot' = f <$> readInto options.maxDepth slot)
    (bytes : List UInt8) :
    fromBytesIntoWith options slot' bytes = (fromBytesIntoWith options slot bytes).map f := by
  cases located : Reader.at? bytes options.offset with
  | error e => simp [fromBytesIntoWith, located, bind, Except.bind, Except.map]
  | ok start =>
    rw [fromBytesIntoWith_eq located, fromBytesIntoWith_eq located, same, map_apply]
    cases readInto options.maxDepth slot start with
    | error e r => rfl
    | ok v r =>
      -- What is left behind the value, and so whether it is too much, is the same for both.
      show (if _ then _ else _) = Except.map f (if _ then _ else _)
      split <;> rfl

theorem fromBytesIntoWith_eq_ok_iff {t : Ty C.Name} {slot v : Value C t} {bytes : List UInt8} :
    fromBytesIntoWith { maxDepth := limit } slot bytes = .ok v ↔
      ∃ r, readInto limit slot (ofBytes bytes) = .ok v r ∧ r.rest = [] := by
  rw [fromBytesIntoWith_eq (at?_zero bytes)]
  cases readInto limit slot (ofBytes bytes) with
  | error e r => simp
  | ok w r =>
    simp only [EStateM.Result.ok.injEq, Bool.false_eq_true, false_or, and_assoc, exists_and_left,
      exists_eq_left']
    by_cases ended : r.rest = [] <;> simp [ended]

end Data

end FlatCodec
