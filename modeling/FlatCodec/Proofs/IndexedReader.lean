import FlatCodec.Proofs.Consumption
import FlatCodec.Reader.Indexed

namespace FlatCodec

open Reader

/-- The same place with an index for what is before it. -/
def Slice.place (data : Slice) (r : Reader) : IndexedReader := ⟨data, UInt64.ofNat r.position⟩

/-- The same result of a reading that may also go astray, which this one has not. -/
def unstrayed {σ τ α : Type} (f : σ → τ) : EStateM.Result DecodeError σ α → EStateM.Result Halt τ α
  | .ok a s => .ok a (f s)
  | .error e s => .error (.failed e) (f s)

@[simp] theorem stateOf_unstrayed {σ τ α : Type} (f : σ → τ)
    (result : EStateM.Result DecodeError σ α) :
    stateOf (unstrayed f result) = f (stateOf result) := by
  cases result <;> rfl

namespace IndexedReader

variable {data : Slice} {r : Reader} {n : Nat}

theorem toNat_of_le (within : n ≤ data.bytes.length) : (UInt64.ofNat n).toNat = n :=
  UInt64.toNat_ofNat_of_lt' (Nat.lt_of_le_of_lt within data.addressable)

theorem remaining_place (placed : r.Placed data.bytes) :
    ∃ left, IndexedReader.remaining (data.place r) = .ok left (data.place r) ∧
      left.toNat = r.remaining := by
  have index := toNat_of_le placed.position_le
  have length := toNat_of_le (Nat.le_refl data.bytes.length)
  have within : (data.place r).index ≤ data.length := by
    rw [UInt64.le_iff_toNat_le, Slice.place, Slice.length, index, length]
    exact placed.position_le
  refine ⟨data.length - (data.place r).index, if_pos within, ?_⟩
  rw [UInt64.toNat_sub_of_le _ _ within, Slice.place, Slice.length, index, length,
    placed.remaining_eq]

/-- As far as there are bytes no sum of indices passes the end. -/
theorem ahead_place (placed : r.Placed data.bytes) {m : UInt64} (enough : m.toNat ≤ r.remaining) :
    ahead m (data.place r) =
      .ok (UInt64.ofNat (r.position + m.toNat)) (data.place r) := by
  have index := toNat_of_le placed.position_le
  have position := placed.position_le
  rw [placed.remaining_eq] at enough
  have within : (UInt64.ofNat r.position).toNat + m.toNat ≤ data.bytes.length := by
    omega
  have sum : UInt64.ofNat r.position + m = UInt64.ofNat (r.position + m.toNat) := by
    rw [UInt64.ofNat_add, UInt64.ofNat_toNat]
  exact (if_pos within).trans (congrArg (EStateM.Result.ok · (data.place r)) sum)

theorem bytesUpTo_place (placed : r.Placed data.bytes) (enough : n ≤ r.remaining) :
    bytesUpTo (UInt64.ofNat (r.position + n)) (data.place r) =
      .ok (r.rest.take n) (data.place r) := by
  have index := toNat_of_le placed.position_le
  have position := placed.position_le
  rw [placed.remaining_eq] at enough
  have reached : r.position + n ≤ data.bytes.length := by omega
  have stop := toNat_of_le reached
  have length := toNat_of_le (Nat.le_refl data.bytes.length)
  have ordered : (data.place r).index ≤ UInt64.ofNat (r.position + n) ∧
      UInt64.ofNat (r.position + n) ≤ data.length := by
    rw [UInt64.le_iff_toNat_le, UInt64.le_iff_toNat_le, Slice.place, Slice.length, index, stop,
      length]
    omega
  have bytes : (data.bytes.take (UInt64.ofNat (r.position + n)).toNat).drop
      (data.place r).index.toNat = r.rest.take n := by
    rw [stop, Slice.place, index, placed.rest_eq, List.drop_take, Nat.add_sub_cancel_left]
  exact (if_pos ordered).trans (congrArg (EStateM.Result.ok · (data.place r)) bytes)

/-- Reading on an index never goes astray, and comes out as reading without one does. -/
theorem readBytes_place (placed : r.Placed data.bytes) (m : UInt64) (context : String) :
    IndexedReader.readBytes m context (data.place r) =
      unstrayed data.place (Reader.readBytes m.toNat context r) := by
  obtain ⟨left, counted, remaining⟩ := remaining_place placed
  have asked : left < m ↔ ¬ m.toNat ≤ r.remaining := by
    rw [UInt64.lt_iff_toNat_lt, remaining, Nat.not_le]
  rw [IndexedReader.readBytes, bind_of_ok counted, readBytes_run]
  by_cases enough : m.toNat ≤ r.remaining
  · have met : ¬ left < m := fun short => asked.mp short enough
    rw [if_neg met, if_pos enough]
    -- The first sum bounds the bytes that are returned, the second is where the index goes.
    refine (bind_of_ok (ahead_place placed enough)).trans ?_
    refine (bind_of_ok (bytesUpTo_place placed enough)).trans ?_
    exact bind_of_ok (ahead_place placed enough)
  · rw [if_pos (asked.mpr enough), if_neg enough, ← remaining]
    exact bind_of_error (throw_apply _)

theorem readArray_place (placed : r.Placed data.bytes) (m : UInt64) (context : String) :
    IndexedReader.readArray m context (data.place r) =
      unstrayed data.place (Reader.readBytes m.toNat context r) := by
  rw [IndexedReader.readArray, bind_apply, readBytes_place placed]
  cases read : Reader.readBytes m.toNat context r with
  | ok bytes r' =>
    obtain ⟨width, -⟩ := readBytes_eq_ok_iff.mp read
    exact congrFun (if_pos width) (data.place r')
  | error e r' => rfl

theorem readByte_place (placed : r.Placed data.bytes) (context : String) :
    IndexedReader.readByte context (data.place r) =
      unstrayed data.place (Reader.readByte context r) := by
  rw [IndexedReader.readByte, bind_apply, readArray_place placed]
  have one : (1 : UInt64).toNat = 1 := rfl
  rw [one, readByte_eq_readBytes]
  cases Reader.readByte context r <;> rfl

theorem readCount_place (placed : r.Placed data.bytes) (context : String) :
    IndexedReader.readCount context (data.place r) =
      unstrayed data.place (FlatCodec.readCount context r) := by
  rw [IndexedReader.readCount, FlatCodec.readCount, Cursor.reading_reader, Read.run_byte, bind_apply,
    bind_apply, readByte_place placed]
  cases Reader.readByte context r <;> rfl

variable {α β : Type}

theorem map_unstrayed {σ τ : Type} {place : σ → τ} {x : EStateM Halt τ α}
    {y : EStateM DecodeError σ α} {s : σ} (f : α → β) (same : x (place s) = unstrayed place (y s)) :
    (f <$> x) (place s) = unstrayed place ((f <$> y) s) := by
  rw [map_apply, map_apply, same]
  cases y s <;> rfl

/-- Marks are kept aside in the same way. -/
theorem lift_unstrayed {x : IndexedReading α} {y : Reading α} {s : Marked Reader}
    (same : x (data.place s.current) = unstrayed data.place (y s.current)) :
    Marked.lift x (s.map data.place) = unstrayed (Marked.map data.place) (Marked.lift y s) := by
  rw [Marked.lift, Marked.lift, Marked.map, same]
  cases y s.current <;> rfl

theorem Step.run_place (step : Step) {s : Marked Reader} (placed : s.All (Placed data.bytes)) :
    step.run (s.map data.place) =
      unstrayed (Marked.map data.place) (step.plain.run s) := by
  cases step with
  | byte context => exact map_unstrayed _ (lift_unstrayed (readByte_place placed.1 context))
  | count context => exact map_unstrayed _ (lift_unstrayed (readCount_place placed.1 context))
  | bytes m context => exact map_unstrayed _ (lift_unstrayed (readBytes_place placed.1 m context))
  | array m context => exact map_unstrayed _ (lift_unstrayed (readArray_place placed.1 m context))
  | save => rfl
  | restore => exact congrArg (EStateM.Result.ok Answer.done) (Marked.map_restore data.place s)

end IndexedReader

end FlatCodec
