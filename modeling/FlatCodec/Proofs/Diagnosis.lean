import FlatCodec.Proofs.Alternative
import FlatCodec.Proofs.IndexedDecoding
import FlatCodec.Proofs.Occurrence
import FlatCodec.Proofs.Settlement
import FlatCodec.Proofs.Span

namespace FlatCodec

open Reader

/-- How many alternatives a closed union has. A uniform union is not closed, since it takes every
index. -/
def Part.closed? {ν : Type} : Part ν → Option Nat
  | .one (.option _) => some 2
  | .one (.oneOf k _) => some (k + 1)
  | .body (.union k _) => some (k + 1)
  | _ => none

/-- A closed union with so many alternatives occurs in a part. -/
def Catalogue.HasUnion (C : Catalogue) (p : Part C.Name) (n : Nat) : Prop :=
  ∃ q, C.Occurs q p ∧ q.closed? = some n

/-- What an error says is so of the bytes that were read from, when reading stopped at a place. An
error about bytes that were read is about the last ones before that place. -/
def DecodeError.TrueAt (unions : Nat → Prop) (limit : Nat) (bytes : List UInt8) (place : Nat) :
    DecodeError → Prop
  | .outOfBounds _ needed remaining => remaining = bytes.length - place ∧ remaining < needed
  | .invalidTag tag alternatives =>
    0 < place ∧ bytes[place - 1]? = some tag ∧ alternatives ≤ tag.toNat ∧ unions alternatives
  | .invalidBool value => 0 < place ∧ bytes[place - 1]? = some value ∧ 2 ≤ value.toNat
  | .invalidUtf8 _ => ∃ count : UInt8, 0 < count.toNat ∧ count.toNat < place ∧
    bytes[place - count.toNat - 1]? = some count ∧
      ∀ s, utf8Bytes s ≠ (bytes.take place).drop (place - count.toNat)
  | .depthExceeded max => max = limit
  | .trailingBytes _ => False

variable {α β : Type} {unions : Nat → Prop} {limit : Nat} {bytes : List UInt8}

/-- A reading of some bytes ended at a place in them, and if in an error, in a true one. -/
def Sound (unions : Nat → Prop) (limit : Nat) (bytes : List UInt8) :
    EStateM.Result DecodeError Reader α → Prop
  | .ok _ r => r.Placed bytes
  | .error e r => r.Placed bytes ∧ e.TrueAt unions limit bytes r.position

/-- Wherever in the bytes it starts, a reading ends soundly. -/
def Truthful (unions : Nat → Prop) (limit : Nat) (bytes : List UInt8) (x : Reading α) : Prop :=
  ∀ r : Reader, r.Placed bytes → Sound unions limit bytes (x r)

theorem Sound.bind {x : Reading α} {f : α → Reading β} {r : Reader}
    (first : Sound unions limit bytes (x r))
    (next : ∀ a r', x r = .ok a r' → r'.Placed bytes →
      Sound unions limit bytes (f a r')) :
    Sound unions limit bytes ((x >>= f) r) := by
  cases read : x r with
  | ok a r' =>
    rw [read] at first
    rw [bind_of_ok read]
    exact next a r' read first
  | error e r' =>
    rw [read] at first
    rw [bind_of_error read]
    exact first

namespace Truthful

theorem answer (a : α) : Truthful unions limit bytes (pure a) := by
  intro r placed
  exact placed

theorem bind {x : Reading α} {f : α → Reading β} (first : Truthful unions limit bytes x)
    (next : ∀ a, Truthful unions limit bytes (f a)) : Truthful unions limit bytes (x >>= f) := by
  intro r placed
  exact (first r placed).bind fun a r' _ placed' => next a r' placed'

end Truthful

namespace Reader

variable {r r' : Reader} {b : UInt8}

theorem Consumed.byte_before (placed : r.Placed bytes)
    (consumed : Consumed r [b] r') :
    r'.position = r.position + 1 ∧ bytes[r.position]? = some b := by
  refine ⟨consumed.position, ?_⟩
  obtain ⟨-, whole⟩ := at?_eq_ok_iff.mp placed
  have behind : bytes.drop r.position = b :: r'.rest := by
    rw [← List.singleton_append, ← consumed.rest, whole]
  rw [← Nat.add_zero r.position, ← List.getElem?_drop, behind]
  rfl

theorem readBytes_truthful (n : Nat) (context : String) :
    Truthful unions limit bytes (readBytes n context) := by
  intro r placed
  cases read : readBytes n context r with
  | ok bs r' => exact (readBytes_eq_ok_iff.mp read).2.placed placed
  | error e r' =>
    rw [readBytes_run] at read
    split at read
    · cases read
    · rename_i few
      obtain ⟨rfl, rfl⟩ := EStateM.Result.error.inj read
      obtain ⟨-, whole⟩ := at?_eq_ok_iff.mp placed
      have left : r.remaining = bytes.length - r.position := by
        rw [remaining, whole, List.length_drop]
      exact ⟨placed, left, Nat.lt_of_not_le few⟩

theorem readByte_truthful (context : String) :
    Truthful unions limit bytes (readByte context) := by
  intro r placed
  have single := @readBytes_truthful unions limit bytes 1 context r placed
  rw [readByte_eq_readBytes] at single
  cases read : readByte context r with
  | ok b r' => rw [read] at single; exact single
  | error e r' => rw [read] at single; exact single

theorem readCount_truthful (context : String) :
    Truthful unions limit bytes (readCount context) :=
  (readByte_truthful context).bind fun _ => .answer _

end Reader

theorem readNumber_truthful (k : Number) : Truthful unions limit bytes (readNumber k) :=
  (readBytes_truthful k.bytes k.name).bind fun _ => .answer _

theorem readBool_truthful : Truthful unions limit bytes readBool := by
  intro r placed
  refine (readByte_truthful "bool" r placed).bind fun b r' read placed' => ?_
  obtain ⟨next, last⟩ := (readByte_eq_ok_iff.mp read).byte_before placed
  split
  · exact placed'
  · exact placed'
  · rename_i no yes
    refine ⟨placed', by omega, by rwa [next], ?_⟩
    have zero : b.toNat ≠ 0 := fun h => no (UInt8.toNat_inj.mp h)
    have one : b.toNat ≠ 1 := fun h => yes (UInt8.toNat_inj.mp h)
    omega

theorem readText_truthful : Truthful unions limit bytes readText := by
  intro r placed
  refine (readCount_truthful "text length" r placed).bind fun n m counted placedM => ?_
  refine (readBytes_truthful n "text" m placedM).bind fun content r' read placed' => ?_
  cases judged : String.fromUTF8? ⟨content.toArray⟩ with
  | some s => exact placed'
  | none =>
    obtain ⟨small, head⟩ := readCount_eq_ok_iff.mp counted
    obtain ⟨len, consumed⟩ := readBytes_eq_ok_iff.mp read
    obtain ⟨next, first⟩ := head.byte_before placed
    have said : (UInt8.ofNat n).toNat = n := byte_toNat_eq_iff.mpr ⟨small, rfl⟩
    have reached : r'.position = r.position + 1 + n := by rw [consumed.position, next, len]
    have unspelled := fromUTF8?_eq_none_iff.mp judged
    -- No bytes at all are a text, so there is at least one.
    have some_bytes : n ≠ 0 := by
      rintro rfl
      exact unspelled "" (List.length_eq_zero_iff.mp len).symm
    have before : r'.position - n - 1 = r.position := by omega
    have between : r'.position - n = m.position := by omega
    refine ⟨placed', UInt8.ofNat n, ?_, ?_, ?_, ?_⟩
    · omega
    · omega
    · rw [said, before]
      exact first
    · rw [said, between, consumed.before placedM]
      exact unspelled

namespace Data

variable {C : Catalogue} {room : Nat} {inner : Slots C}

/-- Every closed union that occurs in a part is among those counted. -/
def Covers (unions : Nat → Prop) (p : Part C.Name) : Prop := ∀ n, C.HasUnion p n → unions n

theorem Covers.inside {p q : Part C.Name} (covers : Covers unions p) (inside : C.Occurs q p) :
    Covers unions q := by
  rintro n ⟨u, found, counted⟩
  exact covers n ⟨u, found.trans inside, counted⟩

theorem Covers.closed {p : Part C.Name} {n : Nat} (covers : Covers unions p)
    (counted : p.closed? = some n) : unions n :=
  covers n ⟨p, .here, counted⟩

theorem covers_unit : Covers unions (.one (.unit : Ty C.Name)) := by
  rintro n ⟨q, inside, counted⟩
  cases inside
  cases counted

/-- How values of every type are read, as long as their unions are counted. -/
def SlotsTruthful (unions : Nat → Prop) (limit : Nat) (bytes : List UInt8) (inner : Slots C) :
    Prop :=
  ∀ (t : Ty C.Name) (slot : Value C t), Covers unions (.one t) →
    Truthful unions limit bytes (inner t slot)

theorem readElements_truthful (truthful : SlotsTruthful unions limit bytes inner) {t : Ty C.Name}
    (covers : Covers unions (.one t)) (n : Nat) (slots : Elements C t) :
    Truthful unions limit bytes (readElements inner n slots) := by
  induction n generalizing slots with
  | zero => exact .answer _
  | succ n ih =>
    rw [readElements_succ]
    exact (truthful t _ covers).bind fun v => (ih _).bind fun vs => .answer _

theorem readFields_truthful (truthful : SlotsTruthful unions limit bytes inner)
    {fs : List (Field C.Name)} (covers : Covers unions (.fields fs)) (slots : Data C (.fields fs)) :
    Truthful unions limit bytes (readFields inner fs slots) := by
  induction fs with
  | nil =>
    cases slots
    exact .answer _
  | cons f fs ih =>
    have others := ih (covers.inside (.later .here))
    cases slots with
    | visited slot slots =>
      have value := truthful _ slot (covers.inside (.first .here))
      exact value.bind fun v => (others slots).bind fun vs => .answer _
    | hidden slot slots => exact (others slots).bind fun vs => .answer _
    | flagged flag slot slots =>
      have body := truthful _ slot (covers.inside (.first .here))
      refine readBool_truthful.bind fun b => ?_
      cases b with
      | true => exact body.bind fun v => (others slots).bind fun vs => .answer _
      | false => exact (others slots).bind fun vs => .answer _

theorem readDeclAlternative_truthful (truthful : SlotsTruthful unions limit bytes inner)
    {d : Decl C.Name} (covers : Covers unions (.body d)) {i : Nat} (known : i < d.alternatives) :
    Truthful unions limit bytes (readDeclAlternative inner d i) := by
  cases d with
  | record fs => exact absurd known (Nat.not_lt_zero i)
  | union k alternatives =>
    have known : i < k + 1 := known
    rw [readDeclAlternative, dif_pos known]
    exact (truthful _ _ (covers.inside (.union ⟨i, known⟩ .here))).bind fun v => .answer _
  | uniform n t => exact (truthful t _ (covers.inside (.uniform .here))).bind fun v => .answer _

theorem readAlternative_truthful (truthful : SlotsTruthful unions limit bytes inner)
    {t : Ty C.Name} (covers : Covers unions (.one t)) {i : Nat} (known : i < C.alternatives t) :
    Truthful unions limit bytes (readAlternative inner t i) := by
  cases t with
  | option t =>
    rcases i with _ | _ | i
    · exact (truthful .unit .unit covers_unit).bind fun v => .answer _
    · exact (truthful t _ (covers.inside (.present .here))).bind fun v => .answer _
    · have few : i + 2 < 2 := known
      omega
  | oneOf k alternatives =>
    have known : i < k + 1 := known
    rw [readAlternative, dif_pos known]
    exact (truthful _ _ (covers.inside (.oneOf ⟨i, known⟩ .here))).bind fun v => .answer _
  | named n =>
    have declared := readDeclAlternative_truthful truthful (covers.inside (.declared .here)) known
    exact declared.bind fun v => .answer _
  | _ => exact absurd known (Nat.not_lt_zero i)

theorem nested_truthful (deeper : FurtherIn limit room (SlotsTruthful (C := C) unions limit bytes))
    {body : Slots C → Reading α}
    (truthful : ∀ inner, SlotsTruthful unions limit bytes inner →
      Truthful unions limit bytes (body inner)) :
    Truthful unions limit bytes (nested limit (furtherIn limit room) body) := by
  cases room with
  | zero =>
    intro r placed
    exact ⟨placed, rfl⟩
  | succ n => exact truthful _ (deeper n rfl)

/-- A tag is refused for what it is; one that is not refused names an alternative. -/
theorem readUnion_truthful
    (deeper : FurtherIn limit room (SlotsTruthful (C := C) unions limit bytes))
    {alternatives : Nat} (counted : alternatives ≤ maxDiscriminant → unions alternatives)
    {payload : Slots C → Nat → Reading α}
    (truthful : ∀ inner, SlotsTruthful unions limit bytes inner → ∀ i < alternatives,
      Truthful unions limit bytes (payload inner i)) :
    Truthful unions limit bytes
      (readUnion limit (furtherIn limit room) alternatives payload) := by
  intro r placed
  refine (readByte_truthful "union tag" r placed).bind fun tag r' read placed' => ?_
  by_cases known : alternatives ≤ tag.toNat
  · obtain ⟨next, last⟩ := (readByte_eq_ok_iff.mp read).byte_before placed
    have low : alternatives ≤ maxDiscriminant :=
      Nat.le_trans known (byte_toNat_eq_iff.mp rfl).1
    rw [if_pos known, Cursor.refuse_reader, bind_of_error (throw_apply _)]
    refine ⟨placed', by omega, ?_, known, counted low⟩
    rwa [next]
  · rw [if_neg known]
    have inside := nested_truthful deeper fun inner reads =>
      truthful inner reads tag.toNat (Nat.lt_of_not_le known)
    exact inside r' placed'

theorem readBody_truthful
    (deeper : FurtherIn limit room (SlotsTruthful (C := C) unions limit bytes)) {d : Decl C.Name}
    (ample : d.Ample) (covers : Covers unions (.body d)) (slot : Data C (.body d)) :
    Truthful unions limit bytes (readBody limit (furtherIn limit room) d slot) := by
  cases d with
  | record fs =>
    cases slot with
    | record slots =>
      refine nested_truthful deeper fun inner truthful => ?_
      have fields := readFields_truthful truthful (covers.inside (.record .here)) slots
      exact fields.bind fun vs => .answer _
  | union k alternatives =>
    exact readUnion_truthful deeper (fun _ => covers.closed rfl) fun inner truthful i known =>
      readDeclAlternative_truthful truthful covers known
  | uniform n t =>
    -- No tag byte reaches the number of alternatives, so none is refused.
    have taken (low : n ≤ maxDiscriminant) : unions n := absurd ample (Nat.not_lt.mpr low)
    exact readUnion_truthful deeper taken fun inner truthful i known =>
      readDeclAlternative_truthful truthful covers known

theorem readOne_truthful
    (deeper : FurtherIn limit room (SlotsTruthful (C := C) unions limit bytes)) :
    SlotsTruthful unions limit bytes (readOne (C := C) limit (furtherIn limit room)) := by
  intro t slot covers
  induction t with
  | number k => exact (readNumber_truthful k).bind fun bits => .answer _
  | bool => exact readBool_truthful.bind fun b => .answer _
  | text => exact readText_truthful.bind fun s => .answer _
  | unit => exact nested_truthful deeper fun inner truthful => .answer _
  | seq t =>
    cases slot with
    | seq slots =>
      refine (readCount_truthful _).bind fun len => nested_truthful deeper fun inner truthful => ?_
      have element := covers.inside (.elements (.element .here))
      exact (readElements_truthful truthful element len slots).bind fun vs => .answer _
  | box t ih =>
    cases slot with
    | box slot => exact (ih slot (covers.inside (.boxed .here))).bind fun v => .answer _
  | option t =>
    exact readUnion_truthful deeper (fun _ => covers.closed rfl) fun inner truthful i known =>
      readAlternative_truthful truthful covers known
  | oneOf k alternatives =>
    exact readUnion_truthful deeper (fun _ => covers.closed rfl) fun inner truthful i known =>
      readAlternative_truthful truthful covers known
  | named n =>
    cases slot with
    | named slot =>
      have body := readBody_truthful deeper (C.ample n) (covers.inside (.declared .here)) slot
      exact body.bind fun v => .answer _

theorem readWithin_truthful (room : Nat) :
    SlotsTruthful unions limit bytes (readWithin (C := C) limit room) :=
  readWithin_induction (fun _ deeper => readOne_truthful deeper) room

theorem readInto_truthful (limit : Nat) {t : Ty C.Name} (slot : Value C t) :
    Truthful (C.HasUnion (.one t)) limit bytes (readInto limit slot) := by
  have counted : Covers (C.HasUnion (.one t)) (.one t) := fun n found => found
  rw [readInto_eq]
  exact readWithin_truthful limit t slot counted

/-- However a reading ends, it has not gone back, nor beyond the end. -/
theorem readInto_within (limit : Nat) {t : Ty C.Name} (slot : Value C t) {offset : Nat}
    {start : Reader} (located : Reader.at? bytes offset = .ok start) :
    let r := stateOf (readInto limit slot start)
    offset ≤ r.position ∧ r.position ≤ bytes.length ∧ r.rest = bytes.drop r.position := by
  obtain ⟨part, consumed⟩ := (readInto_sequential limit slot).consumes start
  exact consumed.within located

/-- Decoding fails at its offset, while reading, or on what is left over. -/
theorem fromBytesIntoWith_eq_error {t : Ty C.Name} {options : DecodeOptions} {slot : Value C t}
    {e : DecodeError} (failed : fromBytesIntoWith options slot bytes = .error e) :
    (bytes.length < options.offset ∧
      e = .outOfBounds "start offset" options.offset bytes.length) ∨
    ∃ start, Reader.at? bytes options.offset = .ok start ∧
      ((∃ r, readInto options.maxDepth slot start = .error e r) ∨
        ∃ v r, readInto options.maxDepth slot start = .ok v r ∧
          options.allowTrailing = false ∧ r.position < bytes.length ∧
            e = .trailingBytes (bytes.length - r.position)) := by
  cases located : Reader.at? bytes options.offset with
  | error e' =>
    have passed : fromBytesIntoWith options slot bytes = .error e' := by
      rw [fromBytesIntoWith, located]
      rfl
    obtain rfl := Except.error.inj (passed.symm.trans failed)
    exact .inl (at?_eq_error_iff.mp located)
  | ok start =>
    refine .inr ⟨start, rfl, ?_⟩
    rw [fromBytesIntoWith_eq located] at failed
    obtain ⟨-, within, rest⟩ := readInto_within options.maxDepth slot located
    cases read : readInto options.maxDepth slot start with
    | error e' r =>
      rw [read] at failed
      obtain rfl := Except.error.inj failed
      exact .inl ⟨r, rfl⟩
    | ok v r =>
      rw [read] at within rest
      simp only [read] at failed
      simp only [stateOf] at within rest
      by_cases accepted : options.allowTrailing = true ∨ r.rest = []
      · rw [if_pos accepted] at failed
        cases failed
      · rw [if_neg accepted] at failed
        obtain ⟨strict, more⟩ := not_or.mp accepted
        have left : r.remaining = bytes.length - r.position := by
          rw [remaining, rest, List.length_drop]
        have short : r.position ≠ bytes.length := by
          intro ended
          rw [ended, List.drop_length] at rest
          exact more rest
        refine .inr ⟨v, r, rfl, by simpa using strict, by omega, ?_⟩
        rw [← left]
        exact (Except.error.inj failed).symm

/-- Every error is a true statement about the bytes. However a reading ends, it stays inside them;
if it fails, they are such as the error says: too few are left, or the last ones read are a tag that
some closed union of the type has no alternative for, no truth value, or no text, or the limit is
the one that was set. Where places are indices into the data it all comes out the same, and no index
or slice beyond the end is asked for. A union never comes to an index beyond its alternatives, so
whatever were done there would not show. Only an offset beyond the end and bytes left over are found
outside. -/
theorem readInto_error_true (t : Ty C.Name) :
    (∀ (limit : Nat) (slot : Value C t) (bytes : List UInt8) (offset : Nat) (start : Reader),
      Reader.at? bytes offset = .ok start →
        let ended := readInto limit slot start
        (offset ≤ (stateOf ended).position ∧ (stateOf ended).position ≤ bytes.length) ∧
        (∀ (e : DecodeError) (r : Reader), ended = .error e r →
          e.TrueAt (C.HasUnion (.one t)) limit bytes r.position) ∧
        ∀ data : Slice, data.bytes = bytes →
          readIntoIndexed limit slot ⟨data, UInt64.ofNat offset⟩ = unstrayed data.place ended) ∧
    (∀ u : Ty C.Name, 0 < C.alternatives u →
      ∀ (limit room : Nat) (slot : Value C u) (other : Nat → Reading (Value C u)),
        readWithin limit room u slot =
          readUnion limit (furtherIn limit room) (C.alternatives u) fun inner i =>
            if i < C.alternatives u then readAlternative inner u i else other i) ∧
    ∀ (options : DecodeOptions) (slot : Value C t) (bytes : List UInt8) (e : DecodeError),
      fromBytesIntoWith options slot bytes = .error e →
        (bytes.length < options.offset ∧
          e = .outOfBounds "start offset" options.offset bytes.length) ∨
        ∃ start, Reader.at? bytes options.offset = .ok start ∧
          ((∃ r, readInto options.maxDepth slot start = .error e r) ∨
            ∃ v r, readInto options.maxDepth slot start = .ok v r ∧
              options.allowTrailing = false ∧ r.position < bytes.length ∧
                e = .trailingBytes (bytes.length - r.position)) := by
  refine ⟨?_, ?_, ?_⟩
  · intro limit slot bytes offset start located ended
    obtain ⟨onward, within, -⟩ := readInto_within limit slot located
    have placed : start.Placed bytes := placed_of_at? located
    refine ⟨⟨onward, within⟩, ?_, ?_⟩
    · intro e r failed
      have sound := readInto_truthful limit slot start placed
      rw [show readInto limit slot start = .error e r from failed] at sound
      exact sound.2
    · rintro data rfl
      obtain ⟨-, rfl⟩ := at?_eq_ok_iff.mp located
      exact readIntoIndexed_place limit slot placed
  · intro u many limit room slot other
    rw [readWithin_eq_readUnion many]
    apply readUnion_congr
    intro inner i known
    rw [if_pos known]
  · intro options slot bytes e failed
    exact fromBytesIntoWith_eq_error failed

/-- In a list of numbers or texts, a tag with no alternative and bytes that are no text are where
the errors say they are, and the tag where an index into the data says it is; an option comes nowhere
else if an index beyond its two gave absence; and an offset beyond the end is found before anything
is read. -/
theorem readInto_error_true_sample :
    let listed : Ty Sample.Name := .seq (.oneOf2 Sample.uint8 .text)
    let data : Slice := ⟨[9, 2, 0, 7, 2, 1], by decide⟩
    (DecodeError.TrueAt (sample.HasUnion (.one listed)) 2 [9, 2, 0, 7, 2, 1] 5 (.invalidTag 2 2) ∧
      DecodeError.TrueAt (sample.HasUnion (.one listed)) 2 [1, 1, 2, 195, 40] 5
        (.invalidUtf8 "text")) ∧
    readIntoIndexed 2 (.seq .nil : Value sample listed) ⟨data, 1⟩ =
      .error (.failed (.invalidTag 2 2)) ⟨data, 5⟩ ∧
    readWithin (C := sample) 2 1 (.option .bool) .absent =
      (readUnion 2 (furtherIn 2 1) 2 fun inner i =>
        if i < 2 then readAlternative inner (.option .bool) i else pure .absent : Reading _) ∧
    (fromBytesIntoWith (C := sample) { offset := 3 } (.seq .nil : Value sample listed) [0, 0] =
        .error (.outOfBounds "start offset" 3 2) ∧
      ([0, 0] : List UInt8).length < 3) := by
  intro listed data
  obtain ⟨readings, unreached, decodings⟩ := readInto_error_true (C := sample) listed
  have no_alternative : readInto 2 (.seq .nil : Value sample listed) ⟨1, [2, 0, 7, 2, 1]⟩ =
      .error (.invalidTag 2 2) ⟨5, [1]⟩ := rfl
  have no_text : readInto 2 (.seq .nil : Value sample listed) ⟨0, [1, 1, 2, 195, 40]⟩ =
      .error (.invalidUtf8 "text") ⟨5, []⟩ := rfl
  have beyond : fromBytesIntoWith { offset := 3 } (.seq .nil : Value sample listed) [0, 0] =
      .error (.outOfBounds "start offset" 3 2) := rfl
  obtain ⟨-, tags, indexed⟩ := readings 2 (.seq .nil) [9, 2, 0, 7, 2, 1] 1 _ rfl
  obtain ⟨-, texts, -⟩ := readings 2 (.seq .nil) [1, 1, 2, 195, 40] 0 _ rfl
  refine ⟨⟨tags _ _ no_alternative, texts _ _ no_text⟩, ?_, ?_, beyond, ?_⟩
  · exact (indexed data rfl).trans (congrArg (unstrayed data.place) no_alternative)
  · exact unreached (.option .bool) (by decide) 2 1 .absent fun _ => pure .absent
  · rcases decodings { offset := 3 } _ [0, 0] _ beyond with ⟨outside, -⟩ | ⟨start, located, -⟩
    · exact outside
    · cases located

end Data

end FlatCodec
