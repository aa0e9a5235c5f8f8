import FlatCodec.Proofs.RoundTrip

namespace FlatCodec

open Reader Item

/-- The failure of reading that answers to a failure of writing, where nothing was written for
the count or the tag that was refused. -/
def EncodeError.echo : EncodeError → DecodeError
  | .lengthExceedsLimit category _ _ => .outOfBounds (category ++ " length") 1 0
  | .discriminantExceedsLimit _ _ => .outOfBounds "union tag" 1 0
  | .depthExceeded max => .depthExceeded max

namespace Item

/-- Between two places lies what an item leaves behind before its first fault. A refused count or
tag is missed only where no bytes follow; a level is missed whatever follows. -/
def Stalls (limit opened : Nat) (e : EncodeError) (i : Item) (r r' : Reader) : Prop :=
  fault? limit opened i = some e ∧ Consumed r (emitted limit opened i) r' ∧
    (e = .depthExceeded limit ∨ r'.rest = [])

def AllStall (limit opened : Nat) (e : EncodeError) (items : List Item) (r r' : Reader) : Prop :=
  faultAll? limit opened items = some e ∧ Consumed r (emittedAll limit opened items) r' ∧
    (e = .depthExceeded limit ∨ r'.rest = [])

variable {limit opened : Nat} {e : EncodeError} {r r' : Reader}

theorem not_stalls_number {k : Number} {bits : k.Bits} :
    ¬ Stalls limit opened e (.number k bits) r r' := by
  simp [Stalls, fault?]

theorem not_stalls_bool {b : Bool} : ¬ Stalls limit opened e (.bool b) r r' := by
  simp [Stalls, fault?]

/-- A level that is missed is a fault with nothing behind it; otherwise the fault lies inside. -/
private theorem stalls_level {inner : Option EncodeError} {content : List UInt8}
    (fault : (if limit ≤ opened then some (.depthExceeded limit) else inner) = some e)
    (consumed : Consumed r (if opened < limit then content else []) r') :
    e = .depthExceeded limit ∧ limit ≤ opened ∧ r' = r ∨
      opened < limit ∧ inner = some e ∧ Consumed r content r' := by
  by_cases free : opened < limit
  · rw [if_neg (Nat.not_le.mpr free)] at fault
    rw [if_pos free] at consumed
    exact .inr ⟨free, fault, consumed⟩
  · have full : limit ≤ opened := Nat.le_of_not_lt free
    rw [if_pos full] at fault
    rw [if_neg free, consumed_nil_iff] at consumed
    exact .inl ⟨(Option.some.inj fault).symm, full, consumed⟩

/-- A count or a discriminant that does not fit its byte is a fault before anything is written;
otherwise its byte is there and the fault lies behind it. -/
private theorem stalls_head {n bound : Nat} {refused : EncodeError} {behind : Option EncodeError}
    {content : List UInt8} (fault : (if bound < n then some refused else behind) = some e)
    (consumed : Consumed r (if n ≤ bound then UInt8.ofNat n :: content else []) r') :
    e = refused ∧ r' = r ∨
      ∃ m, (n ≤ bound ∧ Consumed r [UInt8.ofNat n] m) ∧
        behind = some e ∧ Consumed m content r' := by
  by_cases fits : n ≤ bound
  · rw [if_neg (Nat.not_lt.mpr fits)] at fault
    rw [if_pos fits] at consumed
    obtain ⟨m, head, rest⟩ := consumed_cons_iff.mp consumed
    exact .inr ⟨m, ⟨fits, head⟩, fault, rest⟩
  · rw [if_pos (Nat.lt_of_not_le fits)] at fault
    rw [if_neg fits, consumed_nil_iff] at consumed
    exact .inl ⟨(Option.some.inj fault).symm, consumed⟩

theorem stalls_text {s : String} (h : Stalls limit opened e (.text s) r r') :
    e = .lengthExceedsLimit "text" s.utf8ByteSize maxCount ∧ r' = r ∧ r.rest = [] := by
  obtain ⟨fault, consumed, cut⟩ := h
  rw [fault?] at fault
  rw [emitted] at consumed
  obtain ⟨rfl, rfl⟩ | ⟨m, -, none, -⟩ := stalls_head fault consumed
  · exact ⟨rfl, rfl, by simpa using cut⟩
  · simp at none

theorem stalls_sequence {elements : List Item}
    (h : Stalls limit opened e (.sequence elements) r r') :
    (e = .lengthExceedsLimit "sequence" elements.length maxCount ∧ r' = r ∧ r.rest = []) ∨
      ∃ m, (elements.length ≤ maxCount ∧ Consumed r [UInt8.ofNat elements.length] m) ∧
        (e = .depthExceeded limit ∧ limit ≤ opened ∧ r' = m ∨
          opened < limit ∧ AllStall limit (opened + 1) e elements m r') := by
  obtain ⟨fault, consumed, cut⟩ := h
  rw [fault?] at fault
  rw [emitted] at consumed
  obtain ⟨rfl, rfl⟩ | ⟨m, counted, behind, content⟩ := stalls_head fault consumed
  · exact .inl ⟨rfl, rfl, by simpa using cut⟩
  · obtain missed | ⟨free, inner, bytes⟩ := stalls_level behind content
    · exact .inr ⟨m, counted, .inl missed⟩
    · exact .inr ⟨m, counted, .inr ⟨free, inner, bytes, cut⟩⟩

theorem stalls_union {d : Nat} {payload : Item}
    (h : Stalls limit opened e (.union d payload) r r') :
    (e = .discriminantExceedsLimit d maxDiscriminant ∧ r' = r ∧ r.rest = []) ∨
      ∃ m, (d ≤ maxDiscriminant ∧ Consumed r [UInt8.ofNat d] m) ∧
        (e = .depthExceeded limit ∧ limit ≤ opened ∧ r' = m ∨
          opened < limit ∧ Stalls limit (opened + 1) e payload m r') := by
  obtain ⟨fault, consumed, cut⟩ := h
  rw [fault?] at fault
  rw [emitted] at consumed
  obtain ⟨rfl, rfl⟩ | ⟨m, tag, behind, content⟩ := stalls_head fault consumed
  · exact .inl ⟨rfl, rfl, by simpa using cut⟩
  · obtain missed | ⟨free, inner, bytes⟩ := stalls_level behind content
    · exact .inr ⟨m, tag, .inl missed⟩
    · exact .inr ⟨m, tag, .inr ⟨free, inner, bytes, cut⟩⟩

theorem stalls_composite {fields : List Item}
    (h : Stalls limit opened e (.composite fields) r r') :
    e = .depthExceeded limit ∧ limit ≤ opened ∧ r' = r ∨
      opened < limit ∧ AllStall limit (opened + 1) e fields r r' := by
  obtain ⟨fault, consumed, cut⟩ := h
  rw [fault?] at fault
  rw [emitted] at consumed
  obtain missed | ⟨free, inner, bytes⟩ := stalls_level fault consumed
  · exact .inl missed
  · exact .inr ⟨free, inner, bytes, cut⟩

theorem not_allStall_nil : ¬ AllStall limit opened e [] r r' := by
  simp [AllStall, faultAll?]

theorem allStall_cons {i : Item} {is : List Item} (h : AllStall limit opened e (i :: is) r r') :
    Stalls limit opened e i r r' ∨
      ∃ m, Spans limit opened i r m ∧ AllStall limit opened e is m r' := by
  obtain ⟨fault, consumed, cut⟩ := h
  rw [faultAll?] at fault
  rw [emittedAll] at consumed
  cases head : fault? limit opened i with
  | some e' =>
    simp only [head, reduceCtorEq, if_false, List.append_nil] at fault consumed
    exact .inl ⟨head.trans fault, consumed, cut⟩
  | none =>
    simp only [head, if_true] at fault consumed
    rw [emitted_eq_layout head, consumed_append_iff] at consumed
    obtain ⟨m, first, others⟩ := consumed
    exact .inr ⟨m, ⟨head, first⟩, fault, others, cut⟩

end Item

def Part.Stalls {ν : Type} (limit opened : Nat) (e : EncodeError) :
    {p : Part ν} → p.View → Reader → Reader → Prop
  | .one _, i => Item.Stalls limit opened e i
  | .many _, is => AllStall limit opened e is
  | .fields _, is => AllStall limit opened e is
  | .body _, i => Item.Stalls limit opened e i

namespace Data

variable {C : Catalogue} {limit opened room : Nat} {e : EncodeError} {r r' : Reader}

private theorem nested_full {α : Type} (levels : opened + room = limit) (full : limit ≤ opened)
    (body : Slots C → Reading α) :
    nested limit (furtherIn limit room) body r = .error (.depthExceeded limit) r := by
  obtain rfl : room = 0 := by omega
  rfl

theorem readUnion_of_stalls {α : Type} {alternatives d : Nat}
    {payload : Slots C → Nat → Reading α} {i : Item} (levels : opened + room = limit)
    (known : d ≤ maxDiscriminant → d < alternatives)
    (stalls : Item.Stalls limit opened e (.union d i) r r')
    (alternative : ∀ {n m}, opened + 1 + n = limit → i.Stalls limit (opened + 1) e m r' →
      payload (readWithin limit n) d m = .error e.echo r') :
    readUnion limit (furtherIn limit room) alternatives payload r = .error e.echo r' := by
  obtain ⟨rfl, rfl, ended⟩ | ⟨m, tag, inside⟩ := stalls_union stalls
  · rw [readUnion, Cursor.reading_reader, Read.run_byte]
    exact bind_of_error (readByte_at_end _ ended)
  · rw [readUnion_of_known (known tag.1) tag]
    obtain ⟨rfl, full, rfl⟩ | ⟨free, inner⟩ := inside
    · exact nested_full levels full _
    · obtain ⟨n, rfl, deeper⟩ := further levels free
      exact alternative deeper inner

theorem readWithin_unit_of_stalls (levels : opened + room = limit)
    (stalls : Item.Stalls limit opened e (.composite []) r r') :
    readWithin limit room (.unit : Ty C.Name) .unit r = .error e.echo r' := by
  obtain ⟨rfl, full, rfl⟩ | ⟨free, inner⟩ := stalls_composite stalls
  · rw [readWithin_eq]
    exact nested_full levels full _
  · exact absurd inner not_allStall_nil

/-- Where only what a part leaves behind before its first fault lies, reading stops behind it
with the failure that answers to the fault. -/
theorem readPart_of_stalls {p : Part C.Name} (v slot : Data C p) (ample : p.Ample)
    (levels : opened + room = limit) (stalls : Part.Stalls limit opened e v.view r r') :
    readPart limit room v slot r = .error e.echo r' := by
  -- Everything before the fault is read back as it was written; the induction finds the fault.
  induction v generalizing opened room r with
  | number k bits => exact absurd stalls not_stalls_number
  | bool b => exact absurd stalls not_stalls_bool
  | text s =>
    obtain ⟨rfl, rfl, ended⟩ := stalls_text stalls
    rw [readPart, readWithin_eq]
    exact bind_of_error (bind_of_error (readCount_at_end _ ended))
  | unit =>
    cases slot
    exact readWithin_unit_of_stalls levels stalls
  | seq vs ih =>
    cases slot with
    | seq slots =>
      rw [readPart, readWithin_eq]
      obtain ⟨rfl, rfl, ended⟩ | ⟨m, counted, inside⟩ := stalls_sequence stalls
      · exact bind_of_error (readCount_at_end _ ended)
      · refine (bind_of_ok (readCount_eq_ok_iff.mpr counted)).trans ?_
        obtain ⟨rfl, full, rfl⟩ | ⟨free, inner⟩ := inside
        · exact nested_full levels full _
        · obtain ⟨n, rfl, deeper⟩ := further levels free
          exact bind_of_error (ih slots trivial deeper inner)
  | box v ih =>
    cases slot with
    | box slot =>
      have read := ih slot trivial levels stalls
      rw [readPart, readWithin_eq] at read ⊢
      exact bind_of_error read
  | absent =>
    rw [readPart, readWithin_eq]
    refine readUnion_of_stalls levels (fun _ => by decide) stalls fun {n m} deeper inner => ?_
    exact bind_of_error (readWithin_unit_of_stalls deeper inner)
  | present v ih =>
    rw [readPart, readWithin_eq]
    refine readUnion_of_stalls levels (fun _ => by decide) stalls fun {n m} deeper inner => ?_
    exact bind_of_error (ih (initial _) trivial deeper inner)
  | oneOf i v ih =>
    rw [readPart, readWithin_eq]
    refine readUnion_of_stalls levels (fun _ => i.isLt) stalls fun {n m} deeper inner => ?_
    rw [readAlternative, dif_pos i.isLt]
    exact bind_of_error (ih (initial _) trivial deeper inner)
  | named v ih =>
    cases slot with
    | named slot =>
      have read := ih slot (C.ample _) levels stalls
      rw [readPart, readWithin_eq]
      exact bind_of_error read
  | nil => exact absurd stalls not_allStall_nil
  | cons v vs hv hvs =>
    rw [readPart, view, List.length_cons, readElements_succ]
    obtain head | ⟨m, head, tail⟩ := allStall_cons stalls
    · exact bind_of_error (hv slot.nextSlot trivial levels head)
    · refine (bind_of_ok (readPart_of_spans v slot.nextSlot trivial levels head)).trans ?_
      exact bind_of_error (hvs slot.laterSlots trivial levels tail)
  | done => exact absurd stalls not_allStall_nil
  | visited v vs hv hvs =>
    cases slot with
    | visited slot slots =>
      obtain head | ⟨m, head, tail⟩ := allStall_cons stalls
      · exact bind_of_error (hv slot trivial levels head)
      · refine (bind_of_ok (readPart_of_spans v slot trivial levels head)).trans ?_
        exact bind_of_error (hvs slots trivial levels tail)
  | hidden v vs hv hvs =>
    cases slot with
    | hidden slot slots => exact bind_of_error (hvs slots trivial levels stalls)
  | flagged b v vs hv hvs =>
    cases slot with
    | flagged flag slot slots =>
      cases b with
      | true =>
        obtain said | ⟨m, said, rest⟩ := allStall_cons stalls
        · exact absurd said not_stalls_bool
        · refine (bind_of_ok (readBool_eq_ok_iff.mpr (spans_bool_iff.mp said))).trans ?_
          obtain head | ⟨m', head, tail⟩ := allStall_cons rest
          · exact bind_of_error (hv slot trivial levels head)
          · refine (bind_of_ok (readPart_of_spans v slot trivial levels head)).trans ?_
            exact bind_of_error (hvs slots trivial levels tail)
      | false =>
        obtain said | ⟨m, said, tail⟩ := allStall_cons stalls
        · exact absurd said not_stalls_bool
        · refine (bind_of_ok (readBool_eq_ok_iff.mpr (spans_bool_iff.mp said))).trans ?_
          exact bind_of_error (hvs slots trivial levels tail)
  | record vs ih =>
    cases slot with
    | record slots =>
      obtain ⟨rfl, full, rfl⟩ | ⟨free, inner⟩ := stalls_composite stalls
      · exact nested_full levels full _
      · obtain ⟨n, rfl, deeper⟩ := further levels free
        exact bind_of_error (ih slots trivial deeper inner)
  | union i v ih =>
    rw [readPart, readBody]
    refine readUnion_of_stalls levels (fun _ => i.isLt) stalls fun {n m} deeper inner => ?_
    rw [readDeclAlternative, dif_pos i.isLt]
    exact bind_of_error (ih (initial _) trivial deeper inner)
  | uniform i v ih =>
    rw [readPart, readBody]
    have known (low : i ≤ maxDiscriminant) := Nat.lt_of_le_of_lt low ample
    refine readUnion_of_stalls levels known stalls fun {n m} deeper inner => ?_
    exact bind_of_error (ih (initial _) trivial deeper inner)

/-- What a value leaves behind before its first fault is read to its end, and there reading stops
with the failure that answers to the fault. -/
theorem readInto_of_emitted {t : Ty C.Name} {v : Value C t} {left : List UInt8}
    (fault : v.view.fault? limit 0 = some e) (cut : e = .depthExceeded limit ∨ left = [])
    (slot : Value C t) (start : Nat) :
    readInto limit slot ⟨start, emitted limit 0 v.view ++ left⟩ =
      .error e.echo ⟨start + (emitted limit 0 v.view).length, left⟩ := by
  have stalls : v.view.Stalls limit 0 e ⟨start, emitted limit 0 v.view ++ left⟩
      ⟨start + (emitted limit 0 v.view).length, left⟩ := ⟨fault, ⟨rfl, rfl⟩, cut⟩
  rw [readInto_eq]
  exact readPart_of_stalls v slot trivial (Nat.zero_add limit) stalls

end Data

end FlatCodec
