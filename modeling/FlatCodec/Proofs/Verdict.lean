import FlatCodec.Proofs.RoundTrip
import FlatCodec.Proofs.Settlement

namespace FlatCodec

open Reader Item

namespace Data

variable {C : Catalogue} {t : Ty C.Name} {limit : Nat} {slot v : Value C t}
  {part left : List UInt8}

/-- Where some bytes settle that a value is read, strict decoding asks for more while they are not
all there, and finds too much as soon as anything is behind them. -/
theorem fromBytesIntoWith_take_of_settles (settled : Settles (readInto limit slot) part (.ok v))
    {n : Nat} (within : n ≤ (part ++ left).length) :
    (n < part.length →
      Starved (fromBytesIntoWith { maxDepth := limit } slot ((part ++ left).take n))) ∧
    (n = part.length →
      fromBytesIntoWith { maxDepth := limit } slot ((part ++ left).take n) = .ok v) ∧
    (part.length < n →
      fromBytesIntoWith { maxDepth := limit } slot ((part ++ left).take n) =
        .error (.trailingBytes (n - part.length))) := by
  rw [fromBytesIntoWith_eq (at?_zero _)]
  refine ⟨fun short => ?_, fun same => ?_, fun long => ?_⟩
  · have starved := settled.cut 0 n short
    rw [List.take_append_of_le_length (Nat.le_of_lt short), ofBytes]
    cases read : readInto limit slot ⟨0, part.take n⟩ with
    | ok w r =>
      rw [read] at starved
      exact absurd starved id
    | error e r =>
      rw [read] at starved
      exact starved
  · have read := settled.followed 0 []
    rw [List.append_nil] at read
    rw [same, List.take_left, ofBytes, read]
    simp [result]
  · have read := settled.followed 0 (left.take (n - part.length))
    rw [List.take_append, List.take_of_length_le (Nat.le_of_lt long), ofBytes, read]
    rw [List.length_append] at within
    have behind : (left.take (n - part.length)).length = n - part.length :=
      List.length_take_of_le (by omega)
    have more : left.take (n - part.length) ≠ [] := List.ne_nil_of_length_pos (by omega)
    simp [result, more, remaining, behind]

/-- No byte form of a type begins another, whatever the limits they were written under. -/
theorem eq_of_toBytesWith_isPrefix {w : Value C t} {options options' : EncodeOptions}
    {bytes bytes' : List UInt8} (written : v.toBytesWith options = .ok bytes)
    (written' : w.toBytesWith options' = .ok bytes') (begins : bytes <+: bytes') :
    bytes = bytes' := by
  -- One limit is large enough for both, since a limit only ever refuses.
  obtain ⟨more, rfl⟩ := begins
  have sooner := toBytesWith_of_le (Nat.le_max_left options.maxDepth options'.maxDepth) written
  have later := toBytesWith_of_le (Nat.le_max_right options.maxDepth options'.maxDepth) written'
  have alone := readInto_of_toBytesWith_append sooner (initial t) 0 more
  have both := readInto_of_toBytesWith later (initial t)
  have nothing : more = [] :=
    congrArg rest (EStateM.Result.ok.inj (alone.symm.trans both)).2
  rw [nothing, List.append_nil]

/-- The verdict on a value is decided by exactly the bytes that were consumed for it: other bytes
may follow, and with one byte less, more are asked for. So of all the beginnings of some bytes,
strict decoding takes at most one, and no byte form of a type begins another. -/
theorem readInto_decided_by_consumed (t : Ty C.Name) :
    (∀ (limit : Nat) (slot : Value C t) (bytes : List UInt8)
      (verdict : Except DecodeError (Value C t)) (r : Reader),
      readInto limit slot (ofBytes bytes) = result verdict r → ¬ Starved verdict →
        (∀ bytes' : List UInt8, bytes'.take r.position = bytes.take r.position →
          readInto limit slot (ofBytes bytes') =
            result verdict ⟨r.position, bytes'.drop r.position⟩) ∧
        ∀ n < r.position, Starved (verdictOf (readInto limit slot (ofBytes (bytes.take n))))) ∧
    (∀ (limit : Nat) (slot v : Value C t) (bytes : List UInt8) (r : Reader),
      readInto limit slot (ofBytes bytes) = .ok v r → ∀ n ≤ bytes.length,
        let strict := fromBytesIntoWith { maxDepth := limit } slot (bytes.take n)
        ((∃ w, strict = .ok w) ↔ n = r.position) ∧ (n = r.position → strict = .ok v) ∧
          (n < r.position → Starved strict) ∧
          (r.position < n → strict = .error (.trailingBytes (n - r.position)))) ∧
    ∀ (v w : Value C t) (options options' : EncodeOptions) (bytes bytes' : List UInt8),
      v.toBytesWith options = .ok bytes → w.toBytesWith options' = .ok bytes' →
        bytes <+: bytes' → bytes = bytes' := by
  refine ⟨?_, ?_, ?_⟩
  · intro limit slot bytes verdict r ends fed
    obtain ⟨part, left, rfl, rfl, settled⟩ :=
      (readInto_sequential limit slot).settles ends fed
    refine ⟨fun bytes' same => ?_, fun n short => ?_⟩
    · have whole := List.take_append_drop part.length bytes'
      rw [List.take_left] at same
      rw [same] at whole
      have again := settled.followed 0 (bytes'.drop part.length)
      rw [whole, Nat.zero_add] at again
      exact again
    · have whole : (part ++ left).take n = part.take n :=
        List.take_append_of_le_length (Nat.le_of_lt short)
      rw [whole]
      exact settled.cut 0 n short
  · intro limit slot v bytes r read n within
    obtain ⟨part, left, rfl, rfl, settled⟩ :=
      (readInto_sequential limit slot).settles_ok read
    obtain ⟨short, whole, long⟩ := fromBytesIntoWith_take_of_settles settled within
    refine ⟨⟨?_, ?_⟩, whole, short, long⟩
    · intro h
      obtain ⟨w, taken⟩ := h
      obtain less | same | more := Nat.lt_trichotomy n part.length
      · have starved := short less
        rw [taken] at starved
        exact absurd starved id
      · exact same
      · rw [long more] at taken
        cases taken
    · intro same
      exact ⟨v, whole same⟩
  · intro v w options options' bytes bytes' written written' begins
    exact eq_of_toBytesWith_isPrefix written written' begins

/-- A tag that no option has is refused whatever follows it and missed without it; a sequence of
one present truth value ends behind it; and though the forms of such sequences may begin alike, the
form of one does not begin that of another. -/
theorem readInto_decided_by_consumed_sample :
    (readInto (C := sample) (t := .seq (.option .bool)) 3 (.seq .nil) (ofBytes [2, 1, 1, 2, 0, 0]) =
        .error (.invalidTag 2 2) ⟨4, [0, 0]⟩ ∧
      Starved (verdictOf (readInto (C := sample) (t := .seq (.option .bool)) 3 (.seq .nil)
        (ofBytes [2, 1, 1])))) ∧
    (fromBytesIntoWith (C := sample) (t := .seq (.option .bool)) { maxDepth := 3 } (.seq .nil)
        [1, 1, 1, 9] = .error (.trailingBytes 1) ∧
      Starved (fromBytesIntoWith (C := sample) (t := .seq (.option .bool)) { maxDepth := 3 }
        (.seq .nil) [1, 1])) ∧
    ¬ [2, 1, 1, 0] <+: ([2, 1, 1, 1, 0] : List UInt8) := by
  obtain ⟨decided, strict, prefix_free⟩ :=
    readInto_decided_by_consumed (C := sample) (.seq (.option .bool))
  have refused : readInto (C := sample) (t := .seq (.option .bool)) 3 (.seq .nil)
      (ofBytes [2, 1, 1, 2, 9]) = .error (.invalidTag 2 2) ⟨4, [9]⟩ := rfl
  have read : readInto (C := sample) (t := .seq (.option .bool)) 3 (.seq .nil)
      (ofBytes [1, 1, 1, 9]) = .ok (.seq (.ofList [.present (.bool true)])) ⟨3, [9]⟩ := rfl
  have written : toBytesWith (C := sample) {} (.seq (.ofList [.present (.bool true), .absent])) =
      .ok [2, 1, 1, 0] := rfl
  have written' : toBytesWith (C := sample) {}
      (.seq (.ofList [.present (.bool true), .present (.bool false)])) = .ok [2, 1, 1, 1, 0] := rfl
  have judged : ¬ Starved (.error (.invalidTag 2 2) : Except DecodeError
      (Value sample (.seq (.option .bool)))) := by simp [Starved, DecodeError.group]
  obtain ⟨whatever_follows, cut⟩ := decided _ _ _ (.error _) _ refused judged
  obtain ⟨-, -, -, long⟩ := strict _ _ _ _ _ read 4 (by decide)
  obtain ⟨-, -, short, -⟩ := strict _ _ _ _ _ read 2 (by decide)
  refine ⟨⟨whatever_follows _ rfl, cut 3 (by decide)⟩, ⟨long (by decide), short (by decide)⟩, ?_⟩
  intro begins
  have same := prefix_free _ _ _ _ _ _ written written' begins
  exact absurd same (by decide)

end Data

end FlatCodec
