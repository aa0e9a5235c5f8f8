import FlatCodec.Proofs.Diagnosis
import FlatCodec.Value.Handed

namespace FlatCodec

open Reader

/-- The same failure where the limit is one higher. -/
def DecodeError.raised : DecodeError → DecodeError
  | .depthExceeded max => .depthExceeded (max + 1)
  | e => e

/-- Two results are the same, but for the limit that a missed level reports. -/
inductive EndAlike {α : Type} :
    EStateM.Result DecodeError Reader α → EStateM.Result DecodeError Reader α → Prop where
  | same (ended) : EndAlike ended ended
  | missed (max max' r) : EndAlike (.error (.depthExceeded max) r) (.error (.depthExceeded max') r)

/-- Two readings end alike wherever they start. -/
def Alike {α : Type} (x y : Reading α) : Prop := ∀ r, EndAlike (x r) (y r)

theorem Alike.bind {α β : Type} {x y : Reading α} {f g : α → Reading β} (first : Alike x y)
    (next : ∀ a, Alike (f a) (g a)) : Alike (x >>= f) (y >>= g) := by
  intro r
  have alike := first r
  rw [bind_apply, bind_apply]
  generalize x r = ended, y r = ended' at alike ⊢
  cases alike with
  | same =>
    cases ended with
    | ok a m => exact next a m
    | error e m => exact .same _
  | missed max max' m => exact .missed max max' m

theorem Alike.congruent : Congruent fun _ => Alike where
  answer _ := fun _ => .same _
  refuse _ := fun _ => .same _
  reading _ := fun _ => .same _
  bind := .bind

namespace Data

variable {C : Catalogue} {t u : Ty C.Name} {limit limit' room i : Nat} {bytes : List UInt8}
  {r : Reader}

/-- With as many levels left, it only shows in a missed level which limit they are left under. -/
theorem readWithin_alike (limit limit' room : Nat) :
    SlotsRelated (fun _ => Alike) (readWithin limit room) (readWithin (C := C) limit' room) := by
  induction room with
  | zero =>
    apply readOne_related Alike.congruent Alike.congruent
    intro α bodyX bodyY body r
    exact .missed limit limit' r
  | succ room further =>
    apply readOne_related Alike.congruent Alike.congruent
    intro α bodyX bodyY body
    exact body _ _ further

/-- An alternative is read by a decoder of its own as it is where all levels are handed down. -/
theorem readChosen_eq (limit : Nat) (t : Ty C.Name) (i : Nat) :
    readChosen limit t i = readAlternative (readWithin limit limit) t i := by
  have performs := readAlternative_related (Performs.congruent limit 0)
    (readWithin_performs (C := C) (Nat.zero_add limit)) t i
  funext r
  rw [readChosen, Leveled.fresh, performs.run]
  cases readAlternative (readWithin limit limit) t i r <;> rfl

theorem readAlternative_sequential (limit : Nat) (t : Ty C.Name) (i : Nat) :
    Sequential (readAlternative (readWithin (limit + 1) limit) t i) :=
  have levels : 1 + limit = limit + 1 := Nat.add_comm 1 limit
  (readAlternative_related (Performs.congruent (limit + 1) 1)
    (readWithin_performs (C := C) levels) t i).sequential

/-- A tag byte in front of some bytes takes one level, and behind it the alternative is read. -/
theorem readInto_tagged (known : i < C.alternatives t) (low : i ≤ maxDiscriminant)
    (slot : Value C t) (bytes : List UInt8) :
    readInto (limit + 1) slot (ofBytes (UInt8.ofNat i :: bytes)) =
      mapState (fun r => ⟨1 + r.position, r.rest⟩)
        (readAlternative (readWithin (limit + 1) limit) t i (ofBytes bytes)) := by
  have many : 0 < C.alternatives t := Nat.zero_lt_of_lt known
  have tag : Consumed (ofBytes (UInt8.ofNat i :: bytes)) [UInt8.ofNat i] ⟨1, bytes⟩ := ⟨rfl, rfl⟩
  rw [readInto_eq, readWithin_eq_readUnion many, readUnion_of_known known ⟨low, tag⟩]
  exact (readAlternative_sequential limit t i).relative ⟨1, bytes⟩

/-- Whoever reads an alternative, a level that is missed there is missed under the limit that was
set. -/
theorem limit_of_missed (known : i < C.alternatives t) {max : Nat}
    (missed : readAlternative (readWithin limit room) t i (ofBytes bytes) =
      .error (.depthExceeded max) r) : max = limit := by
  have anything : Covers (fun _ => True) (.one t) := fun _ _ => trivial
  have truthful : SlotsTruthful (fun _ => True) limit bytes (readWithin (C := C) limit room) :=
    readWithin_truthful room
  have sound := readAlternative_truthful truthful anything known (ofBytes bytes) (at?_zero bytes)
  rw [missed] at sound
  exact sound.2

/-- What is read behind a tag byte is what is read without it, from one place further on; only a
missed level is reported under the limit one higher. -/
theorem readInto_tagged_of_chosen (known : i < C.alternatives t) (low : i ≤ maxDiscriminant)
    (slot : Value C t) :
    (∀ v r, readChosen limit t i (ofBytes bytes) = .ok v r →
      readInto (limit + 1) slot (ofBytes (UInt8.ofNat i :: bytes)) =
        .ok v ⟨r.position + 1, r.rest⟩) ∧
    ∀ e r, readChosen limit t i (ofBytes bytes) = .error e r →
      readInto (limit + 1) slot (ofBytes (UInt8.ofNat i :: bytes)) =
        .error e.raised ⟨r.position + 1, r.rest⟩ := by
  have alike := readAlternative_related Alike.congruent
    (readWithin_alike (C := C) limit (limit + 1) limit) t i (ofBytes bytes)
  have missed (max : Nat) (r : Reader) :
      readAlternative (readWithin limit limit) t i (ofBytes bytes) =
        .error (.depthExceeded max) r → max = limit := limit_of_missed known
  have missed' (max : Nat) (r : Reader) :
      readAlternative (readWithin (limit + 1) limit) t i (ofBytes bytes) =
        .error (.depthExceeded max) r → max = limit + 1 := limit_of_missed known
  rw [readInto_tagged known low, readChosen_eq]
  generalize readAlternative (readWithin limit limit) t i (ofBytes bytes) = chosen,
    readAlternative (readWithin (limit + 1) limit) t i (ofBytes bytes) = tagged
    at alike missed missed' ⊢
  cases alike with
  | same =>
    refine ⟨?_, ?_⟩
    · rintro v r rfl
      rw [mapState_ok, Nat.add_comm]
    · rintro e r rfl
      rw [mapState_error, Nat.add_comm]
      cases e with
      | depthExceeded max =>
        -- One error cannot name two limits.
        have here := missed max r rfl
        have there := missed' max r rfl
        omega
      | _ => rfl
  | missed max max' m =>
    obtain rfl := missed max m rfl
    obtain rfl := missed' max' m rfl
    refine ⟨?_, ?_⟩
    · intro v r read
      cases read
    · intro e r failed
      obtain ⟨rfl, rfl⟩ := EStateM.Result.error.inj failed
      rw [mapState_error, Nat.add_comm 1 m.position]
      rfl

theorem readDeclAlternative_of_payload {d : Decl C.Name} (named : d.payload? i = some u) :
    ∃ wrap : Value C u → Data C (.body d),
      (∀ inner : Slots C, readDeclAlternative inner d i = wrap <$> inner u (initial u)) ∧
      ∀ w, (wrap w).view = .union i w.view ∧ (wrap w).handed = [⟨u, w⟩] := by
  cases d with
  | record fs => cases named
  | union k alternatives =>
    rw [Decl.payload?] at named
    split at named
    · rename_i known
      obtain rfl := Option.some.inj named
      refine ⟨.union ⟨i, known⟩, fun inner => ?_, fun w => ⟨rfl, rfl⟩⟩
      rw [readDeclAlternative, dif_pos known, bind_pure_comp]
    · cases named
  | uniform n t =>
    obtain rfl := Option.some.inj named
    refine ⟨.uniform i, fun inner => ?_, fun w => ⟨rfl, rfl⟩⟩
    rw [readDeclAlternative, bind_pure_comp]

/-- An alternative is read by reading its payload, and what comes of it is the value with that index
and that payload. -/
theorem readAlternative_of_payload (named : C.payload? t i = some u) :
    ∃ wrap : Value C u → Value C t,
      (∀ inner : Slots C, readAlternative inner t i = wrap <$> inner u (initial u)) ∧
      ∀ w, (wrap w).view = .union i w.view ∧ (wrap w).handed = [⟨u, w⟩] := by
  cases t with
  | option t =>
    rcases i with _ | _ | i
    · obtain rfl : .unit = u := Option.some.inj named
      refine ⟨fun _ => .absent, fun inner => ?_, fun w => ?_⟩
      · rw [readAlternative, bind_pure_comp]
        rfl
      · cases w
        exact ⟨rfl, rfl⟩
    · obtain rfl : t = u := Option.some.inj named
      refine ⟨.present, fun inner => ?_, fun w => ⟨rfl, rfl⟩⟩
      rw [readAlternative, bind_pure_comp]
    · cases named
  | oneOf k alternatives =>
    rw [Catalogue.payload?] at named
    split at named
    · rename_i known
      obtain rfl := Option.some.inj named
      refine ⟨.oneOf ⟨i, known⟩, fun inner => ?_, fun w => ⟨rfl, rfl⟩⟩
      rw [readAlternative, dif_pos known, bind_pure_comp]
    · cases named
  | named n =>
    obtain ⟨wrap, reads, wrapped⟩ := readDeclAlternative_of_payload (d := C.decl n) named
    refine ⟨fun w => .named (wrap w), fun inner => ?_, wrapped⟩
    rw [readAlternative, bind_pure_comp, reads, ← comp_map]
    rfl
  | _ => cases named

theorem exists_declPayload {d : Decl C.Name} (known : i < d.alternatives) :
    ∃ u, d.payload? i = some u := by
  cases d with
  | record fs => exact absurd known (Nat.not_lt_zero i)
  | union k alternatives => exact ⟨_, dif_pos known⟩
  | uniform n t => exact ⟨t, rfl⟩

theorem exists_payload (known : i < C.alternatives t) : ∃ u, C.payload? t i = some u := by
  cases t with
  | option t =>
    rcases i with _ | _ | i
    · exact ⟨.unit, rfl⟩
    · exact ⟨t, rfl⟩
    · have few : i + 2 < 2 := known
      omega
  | oneOf k alternatives => exact ⟨_, dif_pos known⟩
  | named n => exact exists_declPayload known
  | _ => exact absurd known (Nat.not_lt_zero i)

theorem readDeclAlternative_of_unknown {d : Decl C.Name} (closed : ∀ k u, d ≠ .uniform k u)
    (unknown : d.alternatives ≤ i) (inner : Slots C) :
    readDeclAlternative inner d i = throw (.invalidTag (UInt8.ofNat i) d.alternatives) := by
  cases d with
  | record fs => rfl
  | union k alternatives => exact dif_neg (Nat.not_lt.mpr unknown)
  | uniform n t => exact absurd rfl (closed n t)

/-- An index that names no alternative is refused before anything is read. -/
theorem readAlternative_of_unknown (closed : ¬ C.Uniform t) (unknown : C.alternatives t ≤ i)
    (inner : Slots C) :
    readAlternative inner t i = throw (.invalidTag (UInt8.ofNat i) (C.alternatives t)) := by
  cases t with
  | option t =>
    rcases i with _ | _ | i
    · have few : 2 ≤ 0 := unknown
      omega
    · have few : 2 ≤ 1 := unknown
      omega
    · rfl
  | oneOf k alternatives => exact dif_neg (Nat.not_lt.mpr unknown)
  | named n =>
    have refused := readDeclAlternative_of_unknown (d := C.decl n)
      (fun k u declared => closed ⟨n, k, u, rfl, declared⟩) unknown inner
    rw [readAlternative, refused]
    rfl
  | _ => rfl

/-- The tables of a union agree. Behind its tag, under a limit one higher, an alternative is read as
it is when it is chosen without one: the value or the failure is the same and the place is one
further on. The value says the index that was chosen and hands over the payload that was read, and
a visitor is shown just these two. An index that names no alternative is refused by its lowest byte,
and nothing is read for it. -/
theorem dispatch_coherent (C : Catalogue) (t : Ty C.Name) :
    (∀ i < C.alternatives t, i ≤ maxDiscriminant →
      ∃ u, C.payload? t i = some u ∧
        ∀ (limit : Nat) (slot : Value C t) (bytes : List UInt8),
          let tagged := readInto (limit + 1) slot (ofBytes (UInt8.ofNat i :: bytes))
          (∀ v r, readChosen limit t i (ofBytes bytes) = .ok v r →
            tagged = .ok v ⟨r.position + 1, r.rest⟩ ∧ v.view.discriminant? = some i ∧
              ∃ w, read limit u (ofBytes bytes) = .ok w r ∧ v.handed = [⟨u, w⟩] ∧
                v.view = .union i w.view) ∧
          ∀ e r, readChosen limit t i (ofBytes bytes) = .error e r →
            tagged = .error e.raised ⟨r.position + 1, r.rest⟩ ∧
              read limit u (ofBytes bytes) = .error e r ∧
                ∀ max, e = .depthExceeded max → max = limit) ∧
    (¬ C.Uniform t → ∀ i, C.alternatives t ≤ i → ∀ (limit : Nat) (r : Reader),
      readChosen limit t i r = .error (.invalidTag (UInt8.ofNat i) (C.alternatives t)) r) := by
  refine ⟨?_, ?_⟩
  · intro i known low
    obtain ⟨u, named⟩ := exists_payload known
    obtain ⟨wrap, reads, wrapped⟩ := readAlternative_of_payload named
    refine ⟨u, named, fun limit slot bytes => ?_⟩
    have chosen : readChosen limit t i (ofBytes bytes) =
        (wrap <$> read limit u) (ofBytes bytes) := by
      rw [readChosen_eq, reads, read, readInto_eq]
    obtain ⟨taken, refused⟩ := @readInto_tagged_of_chosen C t limit i bytes known low slot
    refine ⟨?_, ?_⟩
    · intro v r ends
      refine ⟨taken v r ends, ?_⟩
      rw [chosen, map_apply] at ends
      cases payload : read limit u (ofBytes bytes) with
      | error e m =>
        rw [payload] at ends
        cases ends
      | ok w m =>
        rw [payload] at ends
        obtain ⟨rfl, rfl⟩ := EStateM.Result.ok.inj ends
        obtain ⟨shown, handed⟩ := wrapped w
        refine ⟨?_, w, rfl, handed, shown⟩
        rw [shown]
        rfl
    · intro e r ends
      refine ⟨refused e r ends, ?_, ?_⟩
      · rw [chosen, map_apply] at ends
        cases payload : read limit u (ofBytes bytes) with
        | ok w m =>
          rw [payload] at ends
          cases ends
        | error e' m =>
          rw [payload] at ends
          obtain ⟨rfl, rfl⟩ := EStateM.Result.error.inj ends
          rfl
      · rintro max rfl
        rw [readChosen_eq] at ends
        exact limit_of_missed known ends
  · intro closed i unknown limit r
    rw [readChosen_eq, readAlternative_of_unknown closed unknown]
    rfl

/-- A sum of one literal is read behind its tag under three levels as it is chosen under two; under
one level fewer both miss the level of the literal, each under its own limit; and an index that
wraps around to the sum is refused by the tag it would have. -/
theorem dispatch_coherent_sample :
    let expr : Ty Sample.Name := .named .expr
    let one : List UInt8 := [1, 0, 7, 0, 0, 0, 0, 0, 0, 0, 9]
    let literal : Value sample expr := .named (.union 0 (.number _ 7))
    let sum : Value sample expr := .named (.union 2 (.seq (.ofList [literal])))
    (readInto 3 literal (ofBytes (2 :: one)) = .ok sum ⟨11, [9]⟩ ∧
      sum.view.discriminant? = some 2 ∧
        ∃ w : Value sample (.seq expr),
          read 2 _ (ofBytes one) = .ok w ⟨10, [9]⟩ ∧ sum.view = .union 2 w.view) ∧
    readInto 2 literal (ofBytes (2 :: one)) = .error (.depthExceeded 2) ⟨3, one.drop 2⟩ ∧
    (¬ sample.Uniform expr ∧
      readChosen (C := sample) 2 expr 258 (ofBytes one) =
        .error (.invalidTag 2 4) (ofBytes one)) := by
  intro expr one literal sum
  obtain ⟨known, unknown⟩ := dispatch_coherent sample expr
  obtain ⟨u, named, coherent⟩ := known 2 (by decide) (by decide)
  obtain rfl : .seq expr = u := Option.some.inj named
  have chosen : readChosen (C := sample) 2 expr 2 (ofBytes one) = .ok sum ⟨10, [9]⟩ := rfl
  have missed : readChosen (C := sample) 1 expr 2 (ofBytes one) =
      .error (.depthExceeded 1) ⟨2, one.drop 2⟩ := rfl
  have closed : ¬ sample.Uniform expr := by
    rintro ⟨n, k, u, same, declared⟩
    obtain rfl : Sample.Name.expr = n := Ty.named.inj same
    cases declared
  refine ⟨?_, ?_, closed, ?_⟩
  · obtain ⟨read, said, w, payload, -, shown⟩ := (coherent 2 literal one).1 _ _ chosen
    exact ⟨read, said, w, payload, shown⟩
  · exact ((coherent 1 literal one).2 _ _ missed).1
  · exact unknown closed 258 (by decide) 2 (ofBytes one)

end Data

end FlatCodec
