import FlatCodec.Proofs.Refresh
import FlatCodec.Proofs.Span

namespace FlatCodec

open Reader Item

def Part.Spans {ν : Type} (limit opened : Nat) : {p : Part ν} → p.View → Reader → Reader → Prop
  | .one _, i => Item.Spans limit opened i
  | .many _, is => AllSpan limit opened is
  | .fields _, is => AllSpan limit opened is
  | .body _, i => Item.Spans limit opened i

/-- A declaration on its own may turn a tag away that one in a catalogue takes. -/
def Part.Ample {ν : Type} : Part ν → Prop
  | .body d => d.Ample
  | _ => True

namespace Data

variable {C : Catalogue} {limit opened room : Nat} {r r' : Reader}

/-- How each part is read into a slot with `room` levels left. The value tells only how many
elements there are to read. -/
def readPart (limit room : Nat) : {p : Part C.Name} → (v slot : Data C p) → Reading (Data C p)
  | .one t, _, slot => readWithin limit room t slot
  | .many _, vs, slots => readElements (readWithin limit room) vs.view.length slots
  | .fields fs, _, slots => readFields (readWithin limit room) fs slots
  | .body d, _, slot => readBody limit (furtherIn limit room) d slot

theorem further (levels : opened + room = limit) (free : opened < limit) :
    ∃ n, room = n + 1 ∧ opened + 1 + n = limit :=
  ⟨room - 1, by omega, by omega⟩

theorem readUnion_of_spans {α : Type} {alternatives d : Nat} {payload : Slots C → Nat → Reading α}
    {i : Item} {a : α} (levels : opened + room = limit) (known : d < alternatives)
    (spans : Item.Spans limit opened (.union d i) r r')
    (alternative : ∀ {n m}, opened + 1 + n = limit → i.Spans limit (opened + 1) m r' →
      payload (readWithin limit n) d m = .ok a r') :
    readUnion limit (furtherIn limit room) alternatives payload r = .ok a r' := by
  obtain ⟨m, tag, free, inner⟩ := spans_union_iff.mp spans
  obtain ⟨n, rfl, deeper⟩ := further levels free
  have read := alternative deeper inner
  exact readUnion_eq_ok_iff.mpr ⟨d, m, tag, known, n, rfl, read⟩

theorem readWithin_unit_of_spans (levels : opened + room = limit)
    (spans : Item.Spans limit opened (.composite []) r r') :
    readWithin limit room (.unit : Ty C.Name) .unit r = .ok .unit r' := by
  obtain ⟨free, none⟩ := spans_composite_iff.mp spans
  obtain rfl := allSpan_nil_iff.mp none
  obtain ⟨n, rfl, -⟩ := further levels free
  rfl

/-- Where the slots run out, the initial value takes their place and changes nothing. -/
theorem merge_cons_refresh {t : Ty C.Name} (slots : Elements C t) (v : Value C t)
    (vs : Elements C t) :
    slots.merge (.cons v.refresh vs.refresh) =
      .cons (slots.nextSlot.merge v.refresh) (slots.laterSlots.merge vs.refresh) := by
  cases slots with
  | nil =>
    rw [nextSlot, initial_merge_refresh]
    rfl
  | cons slot slots => rfl

/-- Where the byte form of a part lies, reading gives the part, with what is not visited taken
from the slot. -/
theorem readPart_of_spans {p : Part C.Name} (v slot : Data C p) (ample : p.Ample)
    (levels : opened + room = limit) (spans : Part.Spans limit opened v.view r r') :
    readPart limit room v slot r = .ok (slot.merge v.refresh) r' := by
  -- The value is what shrinks: a recursive type or a declaration may be met again further in.
  induction v generalizing opened room r r' with
  | number k bits =>
    cases slot
    have read := readNumber_eq_ok_iff.mpr (spans_number_iff.mp spans)
    rw [readPart, readWithin_eq]
    exact bind_pure_eq_ok.mpr ⟨bits, read, rfl⟩
  | bool b =>
    cases slot
    have read := readBool_eq_ok_iff.mpr (spans_bool_iff.mp spans)
    rw [readPart, readWithin_eq]
    exact bind_pure_eq_ok.mpr ⟨b, read, rfl⟩
  | text s =>
    cases slot
    have read := readText_eq_ok_iff.mpr (spans_text_iff.mp spans)
    rw [readPart, readWithin_eq]
    exact bind_pure_eq_ok.mpr ⟨s, read, rfl⟩
  | unit =>
    cases slot
    exact readWithin_unit_of_spans levels spans
  | seq vs ih =>
    cases slot with
    | seq slots =>
      obtain ⟨m, counted, free, inner⟩ := spans_sequence_iff.mp spans
      obtain ⟨n, rfl, deeper⟩ := further levels free
      have read := ih slots trivial deeper inner
      rw [readPart, readWithin_eq]
      refine bind_eq_ok.mpr ⟨_, m, readCount_eq_ok_iff.mpr counted, ?_⟩
      refine nested_eq_ok_iff.mpr ⟨n, rfl, ?_⟩
      exact bind_pure_eq_ok.mpr ⟨_, read, rfl⟩
  | box v ih =>
    cases slot with
    | box slot =>
      have read := ih slot trivial levels spans
      rw [readPart, readWithin_eq] at read ⊢
      exact bind_pure_eq_ok.mpr ⟨_, read, rfl⟩
  | absent =>
    rw [readPart, readWithin_eq, refresh, merge_absent]
    refine readUnion_of_spans levels (by decide) spans fun {n m} deeper inner => ?_
    exact bind_pure_eq_ok.mpr ⟨_, readWithin_unit_of_spans deeper inner, rfl⟩
  | present v ih =>
    rw [readPart, readWithin_eq, refresh, merge_present]
    refine readUnion_of_spans levels (by decide) spans fun {n m} deeper inner => ?_
    -- A payload is never read into the slot, so nothing of the slot can come back.
    have read := ih (initial _) trivial deeper inner
    rw [initial_merge_refresh] at read
    exact bind_pure_eq_ok.mpr ⟨_, read, rfl⟩
  | oneOf i v ih =>
    rw [readPart, readWithin_eq, refresh, merge_oneOf]
    refine readUnion_of_spans levels i.isLt spans fun {n m} deeper inner => ?_
    have read := ih (initial _) trivial deeper inner
    rw [initial_merge_refresh] at read
    rw [readAlternative, dif_pos i.isLt]
    exact bind_pure_eq_ok.mpr ⟨_, read, rfl⟩
  | named v ih =>
    cases slot with
    | named slot =>
      have read := ih slot (C.ample _) levels spans
      rw [readPart, readWithin_eq]
      exact bind_pure_eq_ok.mpr ⟨_, read, rfl⟩
  | nil =>
    obtain rfl := allSpan_nil_iff.mp spans
    cases slot <;> rfl
  | cons v vs hv hvs =>
    obtain ⟨m, head, tail⟩ := allSpan_cons_iff.mp spans
    have first := hv slot.nextSlot trivial levels head
    have others := hvs slot.laterSlots trivial levels tail
    rw [readPart, view, List.length_cons, readElements_succ, refresh, merge_cons_refresh]
    refine bind_eq_ok.mpr ⟨_, m, first, ?_⟩
    exact bind_pure_eq_ok.mpr ⟨_, others, rfl⟩
  | done =>
    cases slot
    obtain rfl := allSpan_nil_iff.mp spans
    rfl
  | visited v vs hv hvs =>
    cases slot with
    | visited slot slots =>
      obtain ⟨m, head, tail⟩ := allSpan_cons_iff.mp spans
      refine bind_eq_ok.mpr ⟨_, m, hv slot trivial levels head, ?_⟩
      exact bind_pure_eq_ok.mpr ⟨_, hvs slots trivial levels tail, rfl⟩
  | hidden v vs hv hvs =>
    cases slot with
    | hidden slot slots => exact bind_pure_eq_ok.mpr ⟨_, hvs slots trivial levels spans, rfl⟩
  | flagged b v vs hv hvs =>
    cases slot with
    | flagged flag slot slots =>
      cases b with
      | true =>
        obtain ⟨m, said, rest⟩ := allSpan_cons_iff.mp spans
        obtain ⟨m', head, tail⟩ := allSpan_cons_iff.mp rest
        refine bind_eq_ok.mpr ⟨true, m, readBool_eq_ok_iff.mpr (spans_bool_iff.mp said), ?_⟩
        refine bind_eq_ok.mpr ⟨_, m', hv slot trivial levels head, ?_⟩
        exact bind_pure_eq_ok.mpr ⟨_, hvs slots trivial levels tail, rfl⟩
      | false =>
        obtain ⟨m, said, tail⟩ := allSpan_cons_iff.mp spans
        refine bind_eq_ok.mpr ⟨false, m, readBool_eq_ok_iff.mpr (spans_bool_iff.mp said), ?_⟩
        exact bind_pure_eq_ok.mpr ⟨_, hvs slots trivial levels tail, rfl⟩
  | record vs ih =>
    cases slot with
    | record slots =>
      obtain ⟨free, inner⟩ := spans_composite_iff.mp spans
      obtain ⟨n, rfl, deeper⟩ := further levels free
      have read := ih slots trivial deeper inner
      exact bind_pure_eq_ok.mpr ⟨_, read, rfl⟩
  | union i v ih =>
    rw [readPart, readBody, refresh, merge_union]
    refine readUnion_of_spans levels i.isLt spans fun {n m} deeper inner => ?_
    have read := ih (initial _) trivial deeper inner
    rw [initial_merge_refresh] at read
    rw [readDeclAlternative, dif_pos i.isLt]
    exact bind_pure_eq_ok.mpr ⟨_, read, rfl⟩
  | uniform i v ih =>
    rw [readPart, readBody, refresh, merge_uniform]
    -- Every index that has a tag is below the number of alternatives, so no tag is refused.
    obtain ⟨low, -⟩ := fault?_union_eq_none_iff.mp spans.1
    have known := Nat.lt_of_le_of_lt low ample
    refine readUnion_of_spans levels known spans fun {n m} deeper inner => ?_
    have read := ih (initial _) trivial deeper inner
    rw [initial_merge_refresh] at read
    exact bind_pure_eq_ok.mpr ⟨_, read, rfl⟩

/-- Under the limit that a value was written under, it is read back into any slot from where its
bytes lie, and they are consumed to the last one. -/
theorem readInto_of_toBytesWith_append {t : Ty C.Name} {v : Value C t} {bytes : List UInt8}
    (written : v.toBytesWith { maxDepth := limit } = .ok bytes) (slot : Value C t) (p : Nat)
    (left : List UInt8) :
    readInto limit slot ⟨p, bytes ++ left⟩ =
      .ok (slot.merge v.refresh) ⟨p + bytes.length, left⟩ := by
  obtain ⟨rfl, sound, -⟩ := toBytes_eq_ok_iff_spans.mp written
  have spans : Part.Spans limit 0 v.view ⟨p, v.view.layout ++ left⟩
      ⟨p + v.view.layout.length, left⟩ := ⟨sound, rfl, rfl⟩
  rw [readInto_eq]
  exact readPart_of_spans v slot trivial (Nat.zero_add limit) spans

theorem readInto_of_toBytesWith {t : Ty C.Name} {v : Value C t} {bytes : List UInt8}
    (written : v.toBytesWith { maxDepth := limit } = .ok bytes) (slot : Value C t) :
    readInto limit slot (ofBytes bytes) = .ok (slot.merge v.refresh) ⟨bytes.length, []⟩ := by
  have read := readInto_of_toBytesWith_append written slot 0 []
  rwa [List.append_nil, Nat.zero_add] at read

theorem read_of_toBytesWith {t : Ty C.Name} {v : Value C t} {bytes : List UInt8}
    (written : v.toBytesWith { maxDepth := limit } = .ok bytes) :
    read limit t (ofBytes bytes) = .ok v.refresh ⟨bytes.length, []⟩ := by
  rw [read, readInto_of_toBytesWith written, initial_merge_refresh]

theorem decodes_of_toBytesWith {t : Ty C.Name} {v : Value C t} {bytes : List UInt8}
    (written : v.toBytesWith { maxDepth := limit } = .ok bytes) :
    fromBytesWith t { maxDepth := limit } bytes = .ok v.refresh :=
  fromBytesIntoWith_eq_ok_iff.mpr ⟨_, read_of_toBytesWith written, rfl⟩

/-- Decoding undoes encoding: the bytes of a value are read back to their end as that value, with
initial content in the places that are not visited, so as itself where all places are. -/
theorem fromBytesWith_of_toBytesWith {t : Ty C.Name} {v : Value C t} {bytes : List UInt8}
    (written : v.toBytesWith { maxDepth := limit } = .ok bytes) :
    read limit t (ofBytes bytes) = .ok v.refresh ⟨bytes.length, []⟩ ∧
      fromBytesWith t { maxDepth := limit } bytes = .ok v.refresh ∧
      v.refresh.Agrees v ∧ (C.AllVisited (.one t) → v.refresh = v) :=
  ⟨read_of_toBytesWith written, decodes_of_toBytesWith written, refresh_agrees v,
    refresh_eq_self v⟩

/-- A hidden text and a body behind an unset flag come back empty; with neither in sight, the
value comes back as it was. -/
theorem fromBytesWith_of_toBytesWith_sample :
    (fromBytesWith (C := sample) (.seq (.oneOf2 (.named .cond) (.named .masked)))
        { maxDepth := 3 } [2, 0, 0, 1, 5, 0, 2, 195, 169] =
      .ok (.seq (.ofList [.oneOf 0 (Sample.cond false []), .oneOf 1 (Sample.masked 5 "" "é")]))) ∧
    (fromBytesWith (C := sample) (.seq .bool) { maxDepth := 1 } [2, 1, 0] =
      .ok (.seq (.ofList [.bool true, .bool false]))) := by
  refine ⟨?_, ?_⟩
  · let veiled : Value sample (.seq (.oneOf2 (.named .cond) (.named .masked))) :=
      .seq (.ofList [.oneOf 0 (Sample.cond false [7]), .oneOf 1 (Sample.masked 5 "x" "é")])
    have written : veiled.toBytesWith { maxDepth := 3 } =
        .ok [2, 0, 0, 1, 5, 0, 2, 195, 169] := rfl
    exact (fromBytesWith_of_toBytesWith written).2.1
  · let plain : Value sample (.seq .bool) := .seq (.ofList [.bool true, .bool false])
    have written : plain.toBytesWith { maxDepth := 1 } = .ok [2, 1, 0] := rfl
    have only_bool {n : Sample.Name} : ¬ sample.Occurs (.one (.named n)) (.one (.seq .bool)) := by
      intro inside
      cases inside with | elements inside => cases inside with | element inside => cases inside
    obtain ⟨-, decoded, -, same⟩ := fromBytesWith_of_toBytesWith written
    rwa [same ((sample_allVisited_iff _).mpr ⟨only_bool, only_bool⟩)] at decoded

end Data

end FlatCodec
