import FlatCodec.Proofs.IndexedReader
import FlatCodec.Proofs.Levels
import FlatCodec.Proofs.Settlement
import FlatCodec.Value.Indexed

namespace FlatCodec

open Reader

namespace IndexedReader

variable {data : Slice} {opened : Nat} {α β : Type}

/-- A decoding on an index that ends as a reading without one does, wherever in the data that
starts: it never goes astray, and as many levels are open as before. -/
structure Retraces (data : Slice) (opened : Nat) (x : EStateM Halt (Leveled IndexedReader) α)
    (y : Reading α) : Prop where
  sequential : Sequential y
  run : ∀ r : Reader, r.Placed data.bytes →
    x ⟨data.place r, opened⟩ = unstrayed (⟨data.place ·, opened⟩) (y r)

/-- A read asks for no more than a word can count, so the word says what was asked for. -/
theorem reading_place {x : Read α} (countable : x.Countable) {r : Reader}
    (placed : r.Placed data.bytes) :
    (Cursor.reading x : IndexedReading α) (data.place r) = unstrayed data.place (x.run r) := by
  cases x with
  | byte context => exact readByte_place placed context
  | bytes n context =>
    have read := readBytes_place placed (UInt64.ofNat n) context
    rwa [UInt64.toNat_ofNat_of_lt' countable] at read
  | array n context =>
    have read := readArray_place placed (UInt64.ofNat n) context
    rwa [UInt64.toNat_ofNat_of_lt' countable] at read

namespace Retraces

theorem bind {x : EStateM Halt (Leveled IndexedReader) α} {y : Reading α}
    {f : α → EStateM Halt (Leveled IndexedReader) β} {g : α → Reading β}
    (first : Retraces data opened x y) (next : ∀ a, Retraces data opened (f a) (g a)) :
    Retraces data opened (x >>= f) (y >>= g) where
  sequential := .bind first.sequential fun a => (next a).sequential
  run := by
    intro r placed
    rw [bind_apply, bind_apply, first.run r placed]
    obtain ⟨part, consumed⟩ := first.sequential.consumes r
    cases read : y r with
    | error e m => rfl
    | ok a m =>
      rw [read] at consumed
      exact (next a).run m (consumed.placed placed)

theorem congruent (data : Slice) (opened : Nat) :
    Congruent fun _ => Retraces data opened where
  answer a := ⟨.answer a, fun _ _ => rfl⟩
  refuse judged := ⟨.refuse judged, fun _ _ => rfl⟩
  reading {_ x} countable := by
    refine ⟨.run x, ?_⟩
    intro r placed
    show mapState _ ((Cursor.reading x : IndexedReading _) (data.place r)) = _
    rw [reading_place countable placed]
    show _ = unstrayed _ (x.run r)
    cases x.run r <;> rfl
  bind := .bind

theorem level {limit : Nat} {x : EStateM Halt (Leveled IndexedReader) α} {y : Reading α}
    (free : opened < limit) (inner : Retraces data (opened + 1) x y) :
    Retraces data opened (Cursor.nested limit x) y where
  sequential := inner.sequential
  run := by
    intro r placed
    show Leveled.nested limit _ x ⟨data.place r, opened⟩ = _
    rw [Leveled.nested, if_pos free, inner.run r placed]
    cases y r <;> rfl

end Retraces

end IndexedReader

namespace Data

open IndexedReader (Retraces)

variable {C : Catalogue} {data : Slice} {limit opened room : Nat}

theorem nested_retraces (levels : opened + room = limit)
    (deeper : ∀ n, room = n + 1 → SlotsRelated (fun _ => Retraces data (opened + 1))
      (readWithin limit n) (readWithin (C := C) limit n)) :
    LevelRelated (C := C) (fun _ => Retraces data opened) (fun _ => Retraces data (opened + 1))
      limit limit (furtherIn limit room) (furtherIn limit room) := by
  intro α bodyX bodyY body
  cases room with
  | zero => exact (Retraces.congruent data opened).refuse (by simp [DecodeError.group])
  | succ n => exact .level (by omega) (body _ _ (deeper n rfl))

theorem readWithin_retraces (levels : opened + room = limit) :
    SlotsRelated (fun _ => Retraces data opened) (readWithin limit room)
      (readWithin (C := C) limit room) := by
  have congruent := Retraces.congruent data
  induction room using Nat.strongRecOn generalizing opened with
  | ind room further =>
    intro t slot
    rw [readWithin_eq, readWithin_eq]
    apply readOne_related (congruent opened) (congruent (opened + 1)) (nested_retraces levels _)
    intro n left
    have levels : opened + 1 + n = limit := by omega
    exact further n (by omega) levels

/-- Decoding on an index comes out as decoding without one, and no index or count beyond the data
is ever computed. -/
theorem readIntoIndexed_place {t : Ty C.Name} (limit : Nat) (slot : Value C t) {r : Reader}
    (placed : r.Placed data.bytes) :
    readIntoIndexed limit slot (data.place r) = unstrayed data.place (readInto limit slot r) := by
  have retraces : Retraces data 0 (readWithin limit limit t slot) _ :=
    readWithin_retraces (Nat.zero_add limit) t slot
  rw [readIntoIndexed, Leveled.fresh, retraces.run r placed, readInto_eq]
  cases readWithin limit limit t slot r <;> rfl

end Data

end FlatCodec
