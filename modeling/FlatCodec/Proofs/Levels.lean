import FlatCodec.Proofs.Congruence

namespace FlatCodec

/-- A decoding at a node with `opened` levels around it, and the reading that it performs. The
decoding counts the levels it opens, where the reading is handed those that are left. -/
inductive Performs (limit : Nat) : {α : Type} → (opened : Nat) → Decoding α → Reading α → Prop where
  | answer {α opened} (a : α) : Performs limit opened (pure a) (pure a)
  | refuse {α opened} {e : DecodeError} (judged : e.group ≠ .outOfBounds) :
      Performs limit opened (throw e : Decoding α) (throw e)
  | reading {α opened} (x : Read α) : Performs limit opened (Cursor.reading x) x.run
  | bind {α β opened} {x : Decoding α} {y : Reading α} {f : α → Decoding β} {g : α → Reading β}
      (first : Performs limit opened x y) (next : ∀ a, Performs limit opened (f a) (g a)) :
      Performs limit opened (x >>= f) (y >>= g)
  | level {α opened} {x : Decoding α} {y : Reading α} (free : opened < limit)
      (inner : Performs limit (opened + 1) x y) : Performs limit opened (Cursor.nested limit x) y

namespace Performs

variable {limit opened : Nat} {α : Type} {x : Decoding α} {y : Reading α}

theorem sequential (h : Performs limit opened x y) : Sequential y := by
  induction h with
  | answer a => exact .answer a
  | refuse judged => exact .refuse judged
  | reading x => exact .run x
  | bind _ _ first next => exact .bind first next
  | level _ _ inner => exact inner

/-- A decoding ends as the reading does that it performs, with as many levels open as before. -/
theorem run (h : Performs limit opened x y) (r : Reader) :
    x ⟨r, opened⟩ = mapState (⟨·, opened⟩) (y r) := by
  induction h generalizing r with
  | answer a => rfl
  | refuse judged => rfl
  | reading x => rfl
  | @bind α β opened x y f g _ _ first next =>
    rw [bind_apply, bind_apply, first]
    cases y r with
    | ok a r' => exact next a r'
    | error e r' => rfl
  | @level α opened x y free _ inner =>
    show Leveled.nested limit _ x ⟨r, opened⟩ = _
    rw [Leveled.nested, if_pos free, inner]
    cases y r <;> rfl

end Performs

theorem Performs.congruent (limit opened : Nat) : Congruent fun _ => Performs limit opened where
  answer := .answer
  refuse := .refuse
  reading _ := .reading _
  bind := .bind

namespace Data

variable {C : Catalogue} {limit opened room : Nat}

/-- Both ways of minding the levels refuse the same one: the count has reached the limit exactly
where no level is left. -/
theorem nested_performs (levels : opened + room = limit)
    (deeper : ∀ n, room = n + 1 → SlotsRelated (fun _ => Performs limit (opened + 1))
      (readWithin limit n) (readWithin (C := C) limit n)) :
    LevelRelated (C := C) (fun _ => Performs limit opened) (fun _ => Performs limit (opened + 1))
      limit limit (furtherIn limit room) (furtherIn limit room) := by
  intro α bodyX bodyY body
  cases room with
  | zero => exact .refuse (by simp [DecodeError.group])
  | succ n => exact .level (by omega) (body _ _ (deeper n rfl))

/-- A decoder that counts its levels reads as one that is handed those left under the limit. -/
theorem readWithin_performs (levels : opened + room = limit) :
    SlotsRelated (fun _ => Performs limit opened) (readWithin limit room)
      (readWithin (C := C) limit room) := by
  have congruent := Performs.congruent limit
  induction room using Nat.strongRecOn generalizing opened with
  | ind room further =>
    intro t slot
    rw [readWithin_eq, readWithin_eq]
    apply readOne_related (congruent opened) (congruent (opened + 1)) (nested_performs levels _)
    intro n left
    have levels : opened + 1 + n = limit := by omega
    exact further n (by omega) levels

variable {t : Ty C.Name}

/-- Reading alone may as well be handed the levels, which is the form that the proofs below use. -/
theorem readInto_eq (limit : Nat) (slot : Value C t) :
    readInto limit slot = readWithin limit limit t slot := by
  funext r
  rw [readInto, Leveled.fresh, decodeInto,
    (readWithin_performs (Nat.zero_add limit) t slot).run]
  cases readWithin limit limit t slot r <;> rfl

theorem decodeInto_performs (limit : Nat) (slot : Value C t) :
    Performs limit 0 (decodeInto limit slot) (readInto limit slot) := by
  rw [readInto_eq]
  exact readWithin_performs (Nat.zero_add limit) t slot

theorem readInto_sequential (limit : Nat) (slot : Value C t) : Sequential (readInto limit slot) :=
  (decodeInto_performs limit slot).sequential

end Data

end FlatCodec
