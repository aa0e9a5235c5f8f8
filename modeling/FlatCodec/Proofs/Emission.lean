import FlatCodec.Item.Fault
import FlatCodec.Item.Write
import FlatCodec.Proofs.Sequencing
import Mathlib.Tactic.SplitIfs

namespace FlatCodec

namespace Item

mutual

/-- What writing an item leaves behind: its byte form, or what comes before the first fault. A
refused count or discriminant is not written, while a refused level comes behind its count or
tag. -/
def emitted (limit : Nat) : (opened : Nat) → Item → List UInt8
  | _, number k bits => k.toBytes bits
  | _, bool b => [if b then 1 else 0]
  | _, text s =>
    if s.utf8ByteSize ≤ maxCount then UInt8.ofNat s.utf8ByteSize :: utf8Bytes s else []
  | opened, sequence elements =>
    if elements.length ≤ maxCount then
      UInt8.ofNat elements.length ::
        if opened < limit then emittedAll limit (opened + 1) elements else []
    else []
  | opened, union d payload =>
    if d ≤ maxDiscriminant then
      UInt8.ofNat d :: if opened < limit then emitted limit (opened + 1) payload else []
    else []
  | opened, composite fields =>
    if opened < limit then emittedAll limit (opened + 1) fields else []

def emittedAll (limit : Nat) : (opened : Nat) → List Item → List UInt8
  | _, [] => []
  | opened, i :: is =>
    emitted limit opened i ++
      if fault? limit opened i = none then emittedAll limit opened is else []

end

def verdict {σ : Type} (fault : Option EncodeError) (s : σ) : EStateM.Result EncodeError σ Unit :=
  match fault with
  | none => .ok () s
  | some e => .error e s

@[simp] theorem mapState_verdict {σ τ : Type} (f : σ → τ) (fault : Option EncodeError) (s : σ) :
    mapState f (verdict fault s) = verdict fault (f s) := by
  cases fault <;> rfl

variable {limit opened : Nat}

/-- Items written in a row, where each is known to append what it emits and to close its levels. -/
private theorem writeAll_run {items : List Item} (buffer : Buffer)
    (each : ∀ i ∈ items, ∀ buffer, write limit i ⟨buffer, opened⟩ =
      verdict (fault? limit opened i) ⟨buffer ++ emitted limit opened i, opened⟩) :
    writeAll limit items ⟨buffer, opened⟩ =
      verdict (faultAll? limit opened items) ⟨buffer ++ emittedAll limit opened items, opened⟩ := by
  induction items generalizing buffer with
  | nil => simp [writeAll, faultAll?, emittedAll, verdict]
  | cons i is ih =>
    have head := each i List.mem_cons_self buffer
    have tail := fun buffer => ih buffer fun j hj => each j (List.mem_cons_of_mem _ hj)
    rw [writeAll, faultAll?, emittedAll]
    simp only [bind_apply, head]
    cases fault? limit opened i with
    | some e => simp [verdict]
    | none => simp [verdict, tail, Buffer.append_assoc]

private theorem nested_run (body : Encoding Unit) (buffer : Buffer) :
    nested limit body ⟨buffer, opened⟩ =
      if opened < limit then mapState Leveled.close (body ⟨buffer, opened + 1⟩)
      else .error (.depthExceeded limit) ⟨buffer, opened⟩ := rfl

/-- Writing appends what an item emits and ends in its first fault, and however it ends, the
levels are as they were. -/
theorem write_run (i : Item) (buffer : Buffer) :
    write limit i ⟨buffer, opened⟩ =
      verdict (fault? limit opened i) ⟨buffer ++ emitted limit opened i, opened⟩ := by
  induction i generalizing opened buffer with
  | number k bits => simp [write, fault?, emitted, verdict]
  | bool b => simp [write, fault?, emitted, verdict]
  | text s =>
    rw [write, fault?, emitted]
    simp only [bind_apply, Leveled.lift_run, Buffer.writeCount_run]
    by_cases short : s.utf8ByteSize ≤ maxCount
    · simp [short, Nat.not_lt.mpr short, verdict]
    · simp [short, Nat.lt_of_not_ge short, verdict]
  | sequence elements ih =>
    -- The count comes first, so a level that is refused leaves it in the buffer.
    have inner (buffer : Buffer) :=
      @writeAll_run limit (opened + 1) elements buffer fun i hi => ih i hi
    rw [write, fault?, emitted]
    simp only [bind_apply, Leveled.lift_run, Buffer.writeCount_run]
    by_cases short : elements.length ≤ maxCount
    · by_cases room : opened < limit
      · simp [short, Nat.not_lt.mpr short, room, Nat.not_le.mpr room, nested_run, inner]
      · simp [short, Nat.not_lt.mpr short, room, Nat.le_of_not_lt room, nested_run, verdict]
    · simp [short, Nat.lt_of_not_ge short, verdict]
  | union d payload ih =>
    rw [write, fault?, emitted]
    by_cases low : d ≤ maxDiscriminant
    · by_cases room : opened < limit
      · simp [low, Nat.not_lt.mpr low, room, Nat.not_le.mpr room, bind_apply, nested_run, ih]
      · simp [low, Nat.not_lt.mpr low, room, Nat.le_of_not_lt room, bind_apply, nested_run, verdict]
    · simp [low, Nat.lt_of_not_ge low, bind_apply, verdict]
  | composite fields ih =>
    have inner (buffer : Buffer) :=
      @writeAll_run limit (opened + 1) fields buffer fun i hi => ih i hi
    rw [write, fault?, emitted, nested_run]
    by_cases room : opened < limit
    · simp [room, Nat.not_le.mpr room, inner]
    · simp [room, Nat.le_of_not_lt room, verdict]

private theorem emittedAll_eq_layoutAll {items : List Item}
    (each : ∀ i ∈ items, fault? limit opened i = none → emitted limit opened i = i.layout)
    (sound : faultAll? limit opened items = none) :
    emittedAll limit opened items = layoutAll items := by
  induction items with
  | nil => rfl
  | cons i is ih =>
    obtain ⟨head, tail⟩ := faultAll?_cons_eq_none_iff.mp sound
    rw [emittedAll, layoutAll, if_pos head, each i List.mem_cons_self head,
      ih (fun j hj => each j (List.mem_cons_of_mem _ hj)) tail]

theorem emitted_eq_layout {i : Item} (sound : fault? limit opened i = none) :
    emitted limit opened i = i.layout := by
  induction i generalizing opened with
  | number k bits => rfl
  | bool b => rfl
  | text s => rw [emitted, layout, if_pos (fault?_text_eq_none_iff.mp sound)]
  | sequence elements ih =>
    obtain ⟨short, room, each⟩ := fault?_sequence_eq_none_iff.mp sound
    rw [emitted, layout, if_pos short, if_pos room,
      emittedAll_eq_layoutAll (fun i hi => ih i hi) each]
  | union d payload ih =>
    obtain ⟨low, room, inner⟩ := fault?_union_eq_none_iff.mp sound
    rw [emitted, layout, if_pos low, if_pos room, ih inner]
  | composite fields ih =>
    obtain ⟨room, each⟩ := fault?_composite_eq_none_iff.mp sound
    rw [emitted, layout, if_pos room, emittedAll_eq_layoutAll (fun i hi => ih i hi) each]

private theorem emittedAll_isPrefix_layoutAll {items : List Item}
    (each : ∀ i ∈ items, emitted limit opened i <+: i.layout) :
    emittedAll limit opened items <+: layoutAll items := by
  induction items with
  | nil => exact List.prefix_rfl
  | cons i is ih =>
    have tail := ih fun j hj => each j (List.mem_cons_of_mem _ hj)
    rw [emittedAll, layoutAll]
    by_cases sound : fault? limit opened i = none
    · rw [if_pos sound, emitted_eq_layout sound]
      exact (List.prefix_append_right_inj _).mpr tail
    · rw [if_neg sound, List.append_nil]
      exact (each i List.mem_cons_self).trans (List.prefix_append _ _)

/-- Whatever stops the writing of an item, the bytes already out begin its byte form. -/
theorem emitted_isPrefix_layout (i : Item) : emitted limit opened i <+: i.layout := by
  induction i generalizing opened with
  | number k bits => exact List.prefix_rfl
  | bool b => exact List.prefix_rfl
  | text s =>
    rw [emitted, layout]
    split
    · exact List.prefix_rfl
    · exact List.nil_prefix
  | sequence elements ih =>
    have inner : emittedAll limit (opened + 1) elements <+: layoutAll elements :=
      emittedAll_isPrefix_layoutAll fun i hi => ih i hi
    rw [emitted, layout]
    split_ifs with short room
    · exact (List.prefix_append_right_inj [_]).mpr inner
    · exact (List.prefix_append_right_inj [_]).mpr List.nil_prefix
    · exact List.nil_prefix
  | union d payload ih =>
    rw [emitted, layout]
    split_ifs with low room
    · exact (List.prefix_append_right_inj [_]).mpr ih
    · exact (List.prefix_append_right_inj [_]).mpr List.nil_prefix
    · exact List.nil_prefix
  | composite fields ih =>
    rw [emitted, layout]
    split_ifs with room
    · exact emittedAll_isPrefix_layoutAll fun i hi => ih i hi
    · exact List.nil_prefix

/-- Encoding appends the byte form of an item that has nothing wrong with it, and leaves the
encoder as it was otherwise. -/
theorem encode_run (i : Item) (buffer : Buffer) :
    i.encode limit ⟨buffer, opened⟩ =
      match fault? limit opened i with
      | none => .ok () ⟨buffer ++ i.layout, opened⟩
      | some e => .error e ⟨buffer, opened⟩ := by
  rw [encode, write_run]
  cases sound : fault? limit opened i with
  | none => simp [verdict, emitted_eq_layout sound]
  | some e => simp [verdict, Buffer.take_size_append]

/-- By itself an item has a byte form exactly when nothing is wrong with it. -/
theorem toBytes_eq (limit : Nat) (i : Item) :
    i.toBytes limit =
      match fault? limit 0 i with
      | none => .ok i.layout
      | some e => .error e := by
  rw [toBytes, Leveled.fresh, encode_run]
  cases fault? limit 0 i with
  | none => simp [mapState]
  | some e => simp [mapState]

theorem encode_eq (i : Item) (buffer : Buffer) :
    i.encode limit ⟨buffer, 0⟩ =
      match i.toBytes limit with
      | .ok bytes => .ok () ⟨buffer ++ bytes, 0⟩
      | .error e => .error e ⟨buffer, 0⟩ := by
  rw [encode_run, toBytes_eq]
  cases fault? limit 0 i <;> rfl

theorem write_eq (i : Item) (buffer : Buffer) :
    i.write limit ⟨buffer, 0⟩ =
      match i.toBytes limit with
      | .ok bytes => .ok () ⟨buffer ++ bytes, 0⟩
      | .error e => .error e ⟨buffer ++ emitted limit 0 i, 0⟩ := by
  rw [write_run, toBytes_eq]
  cases sound : fault? limit 0 i with
  | none => rw [emitted_eq_layout sound, verdict]
  | some e => rfl

end Item

end FlatCodec
