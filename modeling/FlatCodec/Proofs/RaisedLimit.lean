import FlatCodec.Proofs.Emission
import FlatCodec.Proofs.Settlement
import FlatCodec.Proofs.Span
import FlatCodec.Sample

namespace FlatCodec

open Reader

/-- A reading under a limit, and one that does the same but reads on where the first misses a
level. -/
inductive Outlasts (limit : Nat) : {α : Type} → Reading α → Reading α → Prop where
  | same {α} {x : Reading α} (sequential : Sequential x) : Outlasts limit x x
  | missed {α} {y : Reading α} (sequential : Sequential y) :
      Outlasts limit (throw (.depthExceeded limit)) y
  | bind {α β} {x y : Reading α} {f g : α → Reading β} (first : Outlasts limit x y)
      (next : ∀ a, Outlasts limit (f a) (g a)) : Outlasts limit (x >>= f) (y >>= g)

namespace Outlasts

variable {limit : Nat} {α : Type} {x y : Reading α}

theorem sequential (h : Outlasts limit x y) : Sequential y := by
  induction h with
  | same sequential => exact sequential
  | missed sequential => exact sequential
  | bind _ _ first next => exact .bind first next

theorem congruent (limit : Nat) : Congruent fun _ => Outlasts limit where
  answer a := .same (.answer a)
  refuse judged := .same (.refuse judged)
  reading _ := .same (.run _)
  bind := .bind

/-- The two end alike, unless the first misses a level; the other has then come to that place too
and at most reads on from it. -/
theorem run (h : Outlasts limit x y) (r : Reader) :
    y r = x r ∨ ∃ r' part, x r = .error (.depthExceeded limit) r' ∧
      Consumed r' part (stateOf (y r)) := by
  induction h generalizing r with
  | same sequential => exact .inl rfl
  | missed sequential =>
    obtain ⟨part, consumed⟩ := sequential.consumes r
    exact .inr ⟨r, part, rfl, consumed⟩
  | @bind α β x y f g _ second first next =>
    rcases first r with alike | ⟨r', part, missed, consumed⟩
    · rw [bind_apply, bind_apply, alike]
      cases x r with
      | ok a m => exact next a m
      | error e m => exact .inl rfl
    · -- What the other reads after that can only lead further on.
      have stopped : (x >>= f) r = .error (.depthExceeded limit) r' := bind_of_error missed
      cases read : y r with
      | error e m =>
        rw [read] at consumed
        have failed : (y >>= g) r = .error e m := bind_of_error read
        exact .inr ⟨r', part, stopped, failed ▸ consumed⟩
      | ok a m =>
        rw [read] at consumed
        obtain ⟨more, further⟩ := (second a).sequential.consumes m
        have went_on : (y >>= g) r = g a m := bind_of_ok read
        exact .inr ⟨r', part ++ more, stopped, went_on ▸ consumed.trans further⟩

end Outlasts

namespace Data

variable {C : Catalogue} {limit limit' opened room room' : Nat}

/-- Where the lower limit leaves no level, the first misses one; where it leaves one, so does the
higher limit, and both go in. -/
theorem nested_outlasts (levels' : opened + room' = limit') (raised : room ≤ room')
    (deeper : ∀ n n', room = n + 1 → room' = n' + 1 →
      SlotsRelated (fun _ => Outlasts limit) (readWithin limit n) (readWithin (C := C) limit' n')) :
    LevelRelated (C := C) (fun _ => Outlasts limit) (fun _ => Outlasts limit) limit limit'
      (furtherIn limit room) (furtherIn limit' room') := by
  intro α bodyX bodyY body
  cases room with
  | zero =>
    apply Outlasts.missed
    cases room' with
    | zero => exact .refuse (by simp [DecodeError.group])
    | succ n' =>
      have alike : SlotsRelated (fun _ => Outlasts limit) (readWithin limit' n')
          (readWithin (C := C) limit' n') := by
        intro t slot
        have levels : opened + 1 + n' = limit' := by omega
        exact .same (readWithin_performs levels t slot).sequential
      exact (body _ _ alike).sequential
  | succ n =>
    cases room' with
    | zero => omega
    | succ n' => exact body _ _ (deeper n n' rfl rfl)

/-- At a node with as many levels around it, a reading under a higher limit outlasts one under a
lower. -/
theorem readWithin_outlasts (levels' : opened + room' = limit') (raised : room ≤ room') :
    SlotsRelated (fun _ => Outlasts limit) (readWithin limit room)
      (readWithin (C := C) limit' room') := by
  have congruent := Outlasts.congruent limit
  induction room using Nat.strongRecOn generalizing opened room' with
  | ind room further =>
    intro t slot
    rw [readWithin_eq, readWithin_eq]
    apply readOne_related congruent congruent (nested_outlasts levels' raised _)
    intro n n' left left'
    have levels' : opened + 1 + n' = limit' := by omega
    exact further n (by omega) levels' (by omega)

theorem readInto_outlasts (raised : limit ≤ limit') {t : Ty C.Name} (slot : Value C t) :
    Outlasts limit (readInto limit slot) (readInto limit' slot) := by
  rw [readInto_eq, readInto_eq]
  exact readWithin_outlasts (Nat.zero_add limit') raised t slot

end Data

namespace Item

variable {limit limit' opened : Nat}

private theorem faultAll?_of_raised {items : List Item}
    (each : ∀ i ∈ items, fault? limit opened i ≠ some (.depthExceeded limit) →
      fault? limit' opened i = fault? limit opened i)
    (settled : faultAll? limit opened items ≠ some (.depthExceeded limit)) :
    faultAll? limit' opened items = faultAll? limit opened items := by
  induction items with
  | nil => rfl
  | cons i is ih =>
    rw [faultAll?] at settled
    rw [faultAll?, faultAll?]
    have head := each i List.mem_cons_self
    cases fault : fault? limit opened i with
    | some e =>
      rw [fault] at settled head
      rw [head settled]
    | none =>
      rw [fault] at settled head
      rw [head (by simp)]
      exact ih (fun j hj => each j (List.mem_cons_of_mem _ hj)) settled

private theorem level_of_raised (raised : limit ≤ limit') {inside inside' : Option EncodeError}
    (settled : (if limit ≤ opened then some (.depthExceeded limit) else inside) ≠
      some (.depthExceeded limit))
    (deeper : inside ≠ some (.depthExceeded limit) → inside' = inside) :
    (if limit' ≤ opened then some (.depthExceeded limit') else inside') =
      if limit ≤ opened then some (.depthExceeded limit) else inside := by
  by_cases full : limit ≤ opened
  · rw [if_pos full] at settled
    exact absurd rfl settled
  · have free : ¬ limit' ≤ opened := by omega
    rw [if_neg full] at settled
    rw [if_neg full, if_neg free, deeper settled]

/-- Under a higher limit the walk meets the same fault or none, unless the fault is a level that the
lower limit does not leave. -/
theorem fault?_of_raised (raised : limit ≤ limit') {i : Item}
    (settled : fault? limit opened i ≠ some (.depthExceeded limit)) :
    fault? limit' opened i = fault? limit opened i := by
  induction i generalizing opened with
  | number k bits => rfl
  | bool b => rfl
  | text s => rfl
  | sequence elements ih =>
    rw [fault?] at settled
    rw [fault?, fault?]
    by_cases long : maxCount < elements.length
    · rw [if_pos long, if_pos long]
    · rw [if_neg long] at settled
      rw [if_neg long, if_neg long]
      exact level_of_raised raised settled (faultAll?_of_raised fun i hi => ih i hi)
  | union d payload ih =>
    rw [fault?] at settled
    rw [fault?, fault?]
    by_cases high : maxDiscriminant < d
    · rw [if_pos high, if_pos high]
    · rw [if_neg high] at settled
      rw [if_neg high, if_neg high]
      exact level_of_raised raised settled ih
  | composite fields ih =>
    rw [fault?] at settled
    rw [fault?, fault?]
    exact level_of_raised raised settled (faultAll?_of_raised fun i hi => ih i hi)

end Item

namespace Data

variable {C : Catalogue} {t : Ty C.Name} {limit limit' : Nat}

theorem toBytesWith_of_raised (raised : limit ≤ limit') {v : Value C t}
    (settled : ∀ max, v.toBytesWith { maxDepth := limit } ≠ .error (.depthExceeded max)) :
    v.toBytesWith { maxDepth := limit' } = v.toBytesWith { maxDepth := limit } := by
  simp only [toBytesWith, Item.toBytes_eq] at settled ⊢
  have within : Item.fault? limit 0 v.view ≠ some (.depthExceeded limit) := by
    intro missed
    rw [missed] at settled
    exact settled limit rfl
  rw [Item.fault?_of_raised raised within]

/-- Raising the depth limit changes no verdict but that it is exceeded. Whatever else reading ended
in, a value or an error, it ends in under the higher limit too, and at the same place; and where a
level was missed, reading comes at least as far. Writing gives the same bytes or the same error. -/
theorem verdict_of_raised_limit {limit limit' : Nat} (raised : limit ≤ limit') (t : Ty C.Name) :
    (∀ (slot : Value C t) (r : Reader),
      (∀ (verdict : Except DecodeError (Value C t)) (r' : Reader),
        readInto limit slot r = result verdict r' →
          (∀ max, verdict ≠ .error (.depthExceeded max)) →
            readInto limit' slot r = result verdict r') ∧
      ∀ (max : Nat) (r' : Reader), readInto limit slot r = .error (.depthExceeded max) r' →
        r'.position ≤ (stateOf (readInto limit' slot r)).position) ∧
    (∀ (options : DecodeOptions) (slot : Value C t) (bytes : List UInt8),
      (∀ max, fromBytesIntoWith { options with maxDepth := limit } slot bytes ≠
        .error (.depthExceeded max)) →
      fromBytesIntoWith { options with maxDepth := limit' } slot bytes =
        fromBytesIntoWith { options with maxDepth := limit } slot bytes) ∧
    ∀ v : Value C t, (∀ max, v.toBytesWith { maxDepth := limit } ≠ .error (.depthExceeded max)) →
      v.toBytesWith { maxDepth := limit' } = v.toBytesWith { maxDepth := limit } := by
  refine ⟨?_, ?_, ?_⟩
  · intro slot r
    refine ⟨?_, ?_⟩
    · intro verdict r' ends settled
      rcases (readInto_outlasts raised slot).run r with alike | ⟨m, part, missed, -⟩
      · rw [alike, ends]
      · have both : result verdict r' = result (.error (.depthExceeded limit)) m :=
          ends.symm.trans missed
        exact absurd (result_inj.mp both).1 (settled limit)
    · intro max r' missed
      rcases (readInto_outlasts raised slot).run r with alike | ⟨m, part, missed', consumed⟩
      · rw [alike, missed]
        exact Nat.le_refl _
      · obtain ⟨-, rfl⟩ := EStateM.Result.error.inj (missed.symm.trans missed')
        rw [consumed.position]
        exact Nat.le_add_right _ _
  · intro options slot bytes settled
    cases located : Reader.at? bytes options.offset with
    | error e => simp [fromBytesIntoWith, located, bind, Except.bind]
    | ok start =>
      have decoded (depth : Nat) :=
        @fromBytesIntoWith_eq C { options with maxDepth := depth } t slot bytes start located
      rw [decoded] at settled
      rw [decoded, decoded]
      rcases (readInto_outlasts raised slot).run start with alike | ⟨m, part, missed, -⟩
      · rw [alike]
      · simp only [missed] at settled
        exact absurd rfl (settled limit)
  · intro v settled
    exact toBytesWith_of_raised raised settled

/-- A wrong truth value two levels in is wrong under every limit that is reached; an absent element
misses its third level under two, where five let it be read; and a list without one is written the
same under both. -/
theorem verdict_of_raised_limit_sample :
    2 ≤ 5 ∧
    (readInto (C := sample) 5 (.seq (.nil : Elements sample (.option .bool)))
        (ofBytes [2, 1, 1, 1, 7, 9]) = .error (.invalidBool 7) ⟨5, [9]⟩ ∧
      2 ≤ (stateOf (readInto (C := sample) 5 (.seq (.nil : Elements sample (.option .bool)))
        (ofBytes [2, 0, 1]))).position) ∧
    fromBytesIntoWith (C := sample) { maxDepth := 5 } (.seq (.nil : Elements sample (.option .bool)))
        [1, 1, 0, 8] = .error (.trailingBytes 1) ∧
    toBytesWith (C := sample) { maxDepth := 5 } (.seq (.ofList [.present (.bool true)])) =
      .ok [1, 1, 1] := by
  have raised : 2 ≤ 5 := by decide
  obtain ⟨readings, decodings, encodings⟩ :=
    verdict_of_raised_limit (C := sample) raised (.seq (.option .bool))
  have wrong : readInto (C := sample) 2 (.seq (.nil : Elements sample (.option .bool)))
      (ofBytes [2, 1, 1, 1, 7, 9]) = .error (.invalidBool 7) ⟨5, [9]⟩ := rfl
  have missed : readInto (C := sample) 2 (.seq (.nil : Elements sample (.option .bool)))
      (ofBytes [2, 0, 1]) = .error (.depthExceeded 2) ⟨2, [1]⟩ := rfl
  have trailing : fromBytesIntoWith (C := sample) { maxDepth := 2 }
      (.seq (.nil : Elements sample (.option .bool))) [1, 1, 0, 8] =
        .error (.trailingBytes 1) := rfl
  have written : toBytesWith (C := sample) { maxDepth := 2 }
      (.seq (.ofList [.present (.bool true)])) = .ok [1, 1, 1] := rfl
  refine ⟨raised, ⟨?_, ?_⟩, ?_, ?_⟩
  · exact (readings _ _).1 (.error _) _ wrong (by simp)
  · exact (readings _ _).2 _ _ missed
  · rw [← trailing]
    apply decodings { maxDepth := 2 }
    simp [trailing]
  · rw [← written]
    apply encodings
    simp [written]

end Data

end FlatCodec
