import FlatCodec.Item.Layout
import FlatCodec.Proofs.Sequencing
import FlatCodec.Value.Read

namespace FlatCodec

namespace Reader

/-- Between one place and a later one lie exactly these bytes. -/
structure Consumed (r : Reader) (bytes : List UInt8) (r' : Reader) : Prop where
  rest : r.rest = bytes ++ r'.rest
  position : r'.position = r.position + bytes.length

variable {r m r' : Reader} {bs cs : List UInt8} {b : UInt8} {context : String}

theorem consumed_nil_iff : Consumed r [] r' ↔ r' = r := by
  refine ⟨?_, ?_⟩
  · intro h
    have rest := h.rest
    have position := h.position
    cases r
    cases r'
    simp_all
  · intro h
    subst h
    exact ⟨rfl, rfl⟩

theorem Consumed.trans (first : Consumed r bs m) (second : Consumed m cs r') :
    Consumed r (bs ++ cs) r' := by
  refine ⟨?_, ?_⟩
  · rw [first.rest, second.rest, List.append_assoc]
  · rw [second.position, first.position, List.length_append, Nat.add_assoc]

theorem consumed_append_iff :
    Consumed r (bs ++ cs) r' ↔ ∃ m, Consumed r bs m ∧ Consumed m cs r' := by
  refine ⟨?_, ?_⟩
  · intro h
    refine ⟨⟨r.position + bs.length, cs ++ r'.rest⟩, ⟨?_, rfl⟩, ⟨rfl, ?_⟩⟩
    · rw [h.rest, List.append_assoc]
    · rw [h.position, List.length_append, Nat.add_assoc]
  · intro h
    obtain ⟨m, first, second⟩ := h
    exact first.trans second

theorem consumed_cons_iff :
    Consumed r (b :: bs) r' ↔ ∃ m, Consumed r [b] m ∧ Consumed m bs r' :=
  @consumed_append_iff r r' [b] bs

/-- A byte leads one place on. -/
theorem Consumed.passed (consumed : Consumed r [b] r') : r.position < r'.position := by
  rw [consumed.position]
  exact Nat.lt_succ_self _

theorem readBytes_eq_ok_iff {n : Nat} :
    readBytes n context r = .ok bs r' ↔ bs.length = n ∧ Consumed r bs r' := by
  rw [readBytes_run]
  refine ⟨?_, ?_⟩
  · intro h
    split at h
    · rename_i enough
      obtain ⟨rfl, rfl⟩ : r.rest.take n = bs ∧ ⟨r.position + n, r.rest.drop n⟩ = r' := by
        simpa using h
      have len : (r.rest.take n).length = n := List.length_take_of_le enough
      exact ⟨len, (List.take_append_drop n r.rest).symm, by rw [len]⟩
    · simp at h
  · intro h
    obtain ⟨rfl, rest, position⟩ := h
    have enough : bs.length ≤ r.remaining := by simp [remaining, rest]
    rw [if_pos enough, rest]
    simp [← position]

theorem readByte_eq_ok_iff : readByte context r = .ok b r' ↔ Consumed r [b] r' := by
  have h := @readBytes_eq_ok_iff r r' [b] context 1
  rw [readByte_eq_readBytes] at h
  cases read : readByte context r <;> simpa [read] using h

theorem readByte_at_end (context : String) (ended : r.rest = []) :
    readByte context r = .error (.outOfBounds context 1 0) r := by
  simp only [readByte, ended]

theorem readCount_at_end (context : String) (ended : r.rest = []) :
    readCount context r = .error (.outOfBounds context 1 0) r :=
  bind_of_error (readByte_at_end context ended)

theorem readCount_eq_ok_iff {n : Nat} :
    readCount context r = .ok n r' ↔ n ≤ maxCount ∧ Consumed r [UInt8.ofNat n] r' := by
  rw [readCount, bind_eq_ok]
  refine ⟨?_, ?_⟩
  · intro h
    obtain ⟨b, m, read, done⟩ := h
    obtain ⟨counted, rfl⟩ : b.toNat = n ∧ m = r' := by simpa using done
    obtain ⟨small, rfl⟩ := byte_toNat_eq_iff.mp counted
    exact ⟨small, readByte_eq_ok_iff.mp read⟩
  · intro h
    obtain ⟨small, consumed⟩ := h
    refine ⟨UInt8.ofNat n, r', readByte_eq_ok_iff.mpr consumed, ?_⟩
    rw [byte_toNat_eq_iff.mpr ⟨small, rfl⟩, pure_apply]

theorem at?_eq_ok_iff {bytes : List UInt8} {offset : Nat} :
    at? bytes offset = .ok r ↔ offset ≤ bytes.length ∧ r = ⟨offset, bytes.drop offset⟩ := by
  rw [at?]
  split <;> rename_i reached <;> simp [reached, eq_comm]

theorem at?_eq_error_iff {bytes : List UInt8} {offset : Nat} {e : DecodeError} :
    at? bytes offset = .error e ↔
      bytes.length < offset ∧ e = .outOfBounds "start offset" offset bytes.length := by
  rw [at?, ← Nat.not_le]
  split <;> rename_i reached <;> simp [reached, eq_comm]

theorem at?_zero (bytes : List UInt8) : at? bytes 0 = .ok (ofBytes bytes) := rfl

/-- Behind whatever was read from a place in some bytes lies what is left of these. -/
theorem Consumed.within {bytes : List UInt8} {offset : Nat} (consumed : Consumed r bs r')
    (located : at? bytes offset = .ok r) :
    offset ≤ r'.position ∧ r'.position ≤ bytes.length ∧ r'.rest = bytes.drop r'.position := by
  obtain ⟨reached, rfl⟩ := at?_eq_ok_iff.mp located
  have moved : r'.position = offset + bs.length := consumed.position
  have split : bytes.drop offset = bs ++ r'.rest := consumed.rest
  have fits : bs.length ≤ bytes.length - offset := by
    rw [← List.length_drop, split, List.length_append]
    exact Nat.le_add_right _ _
  refine ⟨?_, ?_, ?_⟩
  · omega
  · omega
  · rw [moved, ← List.drop_drop, split, List.drop_left]

/-- A reader stands in some bytes: what is left for it is what lies behind its position there. -/
abbrev Placed (bytes : List UInt8) (r : Reader) : Prop := at? bytes r.position = .ok r

section Placed

variable {bytes : List UInt8}

theorem placed_of_at? {offset : Nat} (located : at? bytes offset = .ok r) : r.Placed bytes := by
  obtain ⟨reached, rfl⟩ := at?_eq_ok_iff.mp located
  exact located

theorem Placed.position_le (placed : r.Placed bytes) : r.position ≤ bytes.length :=
  (at?_eq_ok_iff.mp placed).1

theorem Placed.rest_eq (placed : r.Placed bytes) : r.rest = bytes.drop r.position :=
  congrArg Reader.rest (at?_eq_ok_iff.mp placed).2

theorem Placed.remaining_eq (placed : r.Placed bytes) :
    r.remaining = bytes.length - r.position := by
  rw [remaining, placed.rest_eq, List.length_drop]

theorem Consumed.placed (placed : r.Placed bytes) (consumed : Consumed r bs r') :
    r'.Placed bytes := by
  obtain ⟨-, inside, rest⟩ := consumed.within placed
  refine at?_eq_ok_iff.mpr ⟨inside, ?_⟩
  rw [← rest]

/-- What was read last lies right before the place that was reached. -/
theorem Consumed.before (placed : r.Placed bytes) (consumed : Consumed r bs r') :
    (bytes.take r'.position).drop r.position = bs := by
  rw [List.drop_take, ← placed.rest_eq, consumed.rest, consumed.position, Nat.add_sub_cancel_left,
    List.take_left]

end Placed

end Reader

open Reader

variable {r r' : Reader}

theorem readNumber_eq_ok_iff {k : Number} {bits : k.Bits} :
    readNumber k r = .ok bits r' ↔ Consumed r (k.toBytes bits) r' := by
  rw [readNumber, bind_eq_ok]
  refine ⟨?_, ?_⟩
  · intro h
    obtain ⟨bytes, m, read, done⟩ := h
    obtain ⟨rfl, rfl⟩ : k.ofBytes bytes = bits ∧ m = r' := by simpa using done
    obtain ⟨width, consumed⟩ := readBytes_eq_ok_iff.mp read
    rwa [Number.toBytes_ofBytes k bytes width]
  · intro h
    have width := Number.toBytes_length k bits
    refine ⟨k.toBytes bits, r', readBytes_eq_ok_iff.mpr ⟨width, h⟩, ?_⟩
    rw [Number.ofBytes_toBytes, pure_apply]

theorem readBool_eq_ok_iff {b : Bool} :
    readBool r = .ok b r' ↔ Consumed r [if b then 1 else 0] r' := by
  rw [readBool, bind_eq_ok]
  refine ⟨?_, ?_⟩
  · intro h
    obtain ⟨byte, m, read, done⟩ := h
    have consumed := readByte_eq_ok_iff.mp read
    split at done
    · obtain ⟨rfl, rfl⟩ : false = b ∧ m = r' := by simpa using done
      exact consumed
    · obtain ⟨rfl, rfl⟩ : true = b ∧ m = r' := by simpa using done
      exact consumed
    · simp at done
  · intro h
    refine ⟨_, r', readByte_eq_ok_iff.mpr h, ?_⟩
    cases b <;> rfl

theorem readBool_of_neither {value : UInt8} (neither : 2 ≤ value.toNat)
    (there : Consumed r [value] r') : readBool r = .error (.invalidBool value) r' := by
  rw [readBool]
  refine (bind_of_ok (readByte_eq_ok_iff.mpr there)).trans ?_
  split
  · simp at neither
  · simp at neither
  · rfl

/-- Well-formed bytes are those of the one text they spell. -/
theorem fromUTF8?_eq_some_iff {bytes : List UInt8} {s : String} :
    String.fromUTF8? ⟨bytes.toArray⟩ = some s ↔ bytes = utf8Bytes s := by
  have same : s.toByteArray = ⟨bytes.toArray⟩ ↔ bytes = utf8Bytes s := by
    rw [utf8Bytes, ByteArray.ext_iff, ← Array.toList_inj]
    exact eq_comm
  rw [String.fromUTF8?, ← same]
  refine ⟨?_, ?_⟩
  · intro h
    split at h
    · obtain rfl := Option.some.inj h
      rfl
    · simp at h
  · intro h
    have valid : ByteArray.IsValidUTF8 ⟨bytes.toArray⟩ := h ▸ s.isValidUTF8
    rw [dif_pos valid, Option.some.injEq, ← String.toByteArray_inj, h]
    rfl

theorem fromUTF8?_eq_none_iff {bytes : List UInt8} :
    String.fromUTF8? ⟨bytes.toArray⟩ = none ↔ ∀ s, utf8Bytes s ≠ bytes := by
  rw [Option.eq_none_iff_forall_ne_some]
  exact forall_congr' fun s => not_congr (fromUTF8?_eq_some_iff.trans eq_comm)

theorem readText_eq_ok_iff {s : String} :
    readText r = .ok s r' ↔
      s.utf8ByteSize ≤ maxCount ∧ Consumed r (UInt8.ofNat s.utf8ByteSize :: utf8Bytes s) r' := by
  rw [readText, bind_eq_ok, consumed_cons_iff]
  refine ⟨?_, ?_⟩
  · intro h
    obtain ⟨n, m, counted, h⟩ := h
    obtain ⟨bytes, m', read, done⟩ := bind_eq_ok.mp h
    obtain ⟨rfl, content⟩ := readBytes_eq_ok_iff.mp read
    obtain ⟨short, count⟩ := readCount_eq_ok_iff.mp counted
    cases judged : String.fromUTF8? ⟨bytes.toArray⟩ with
    | none => simp [judged] at done
    | some spelled =>
      obtain ⟨rfl, rfl⟩ : spelled = s ∧ m' = r' := by simpa [judged] using done
      obtain rfl := fromUTF8?_eq_some_iff.mp judged
      exact ⟨short, m, count, content⟩
  · intro h
    obtain ⟨short, m, count, content⟩ := h
    refine ⟨_, m, readCount_eq_ok_iff.mpr ⟨short, count⟩, ?_⟩
    refine bind_eq_ok.mpr ⟨_, r', readBytes_eq_ok_iff.mpr ⟨utf8Bytes_length s, content⟩, ?_⟩
    simp only [fromUTF8?_eq_some_iff.mpr rfl, pure_apply]

theorem readText_of_unspelled {content : List UInt8} (short : content.length ≤ maxCount)
    (unspelled : ∀ s, utf8Bytes s ≠ content)
    (there : Consumed r (UInt8.ofNat content.length :: content) r') :
    readText r = .error (.invalidUtf8 "text") r' := by
  obtain ⟨m, count, bytes⟩ := consumed_cons_iff.mp there
  have read : (Cursor.reading (.bytes content.length "text") : Reading _) m = .ok content r' :=
    readBytes_eq_ok_iff.mpr ⟨rfl, bytes⟩
  rw [readText, bind_of_ok (readCount_eq_ok_iff.mpr ⟨short, count⟩), bind_of_ok read]
  simp only [fromUTF8?_eq_none_iff.mpr unspelled, Cursor.refuse_reader, throw_apply]

end FlatCodec
