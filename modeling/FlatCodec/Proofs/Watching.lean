import FlatCodec.Level.Log
import FlatCodec.Proofs.Congruence
import FlatCodec.Proofs.Sequencing

namespace FlatCodec

namespace Watched

/-- A watching decoder ends as one that keeps no log. -/
def Follows {α : Type} (x : Watching α) (y : Decoding α) : Prop :=
  ∀ s, mapState forget (x s) = y s.forget

theorem Follows.congruent : Congruent fun _ => Follows where
  answer _ := fun _ => rfl
  refuse _ := fun _ => rfl
  reading {_ x} _ := by
    intro s
    rw [reading_run]
    show _ = mapState _ (x.run s.state.reader)
    cases x.run s.state.reader <;> rfl
  bind {α β x y f g} first next := by
    intro s
    have followed := first s
    rw [bind_apply, bind_apply, ← followed]
    cases x s with
    | ok a m => exact next a m
    | error e m => rfl

theorem nested_follows {α : Type} {x : Watching α} {y : Decoding α} (limit : Nat)
    (inner : Follows x y) : Follows (Cursor.nested limit x) (Cursor.nested limit y) := by
  intro s
  have plain : Cursor.nested limit y s.forget =
      if s.depth < limit then mapState Leveled.close (y s.opened.forget)
      else .error (.depthExceeded limit) s.forget := rfl
  rw [nested_run, plain, ← inner s.opened]
  by_cases free : s.depth < limit
  · rw [if_pos free, if_pos free]
    cases x s.opened <;> rfl
  · rw [if_neg free, if_neg free]
    rfl

/-- A decoder under a higher limit, which goes through the same moments to the same end, unless the
first misses a level. -/
def Unhindered {α : Type} (x y : Watching α) : Prop :=
  ∀ s, y s = x s ∨ ∃ max, verdictOf (x s) = .error (.depthExceeded max)

theorem Unhindered.congruent : Congruent fun _ => Unhindered where
  answer _ := fun _ => .inl rfl
  refuse _ := fun _ => .inl rfl
  reading _ := fun _ => .inl rfl
  bind {α β x y f g} first next := by
    intro s
    rcases first s with alike | ⟨max, missed⟩
    · rw [bind_apply, bind_apply, alike]
      cases x s with
      | ok a m => exact next a m
      | error e m => exact .inl rfl
    · cases ended : x s with
      | ok a m =>
        rw [ended] at missed
        cases missed
      | error e m =>
        rw [ended] at missed
        obtain rfl : e = .depthExceeded max := Except.error.inj missed
        refine .inr ⟨max, ?_⟩
        rw [bind_of_error ended]
        rfl

theorem nested_unhindered {α : Type} {x y : Watching α} {limit limit' : Nat}
    (raised : limit ≤ limit') (inner : Unhindered x y) :
    Unhindered (Cursor.nested limit x) (Cursor.nested limit' y) := by
  intro s
  rw [nested_run, nested_run]
  by_cases free : s.depth < limit
  · have free' : s.depth < limit' := Nat.lt_of_lt_of_le free raised
    rw [if_pos free, if_pos free']
    rcases inner s.opened with alike | ⟨max, missed⟩
    · rw [alike]
      exact .inl rfl
    · refine .inr ⟨max, ?_⟩
      rw [verdictOf_mapState, missed]
  · rw [if_neg free]
    exact .inr ⟨limit, rfl⟩

end Watched

namespace Data

variable {C : Catalogue} {t : Ty C.Name} {limit : Nat}

theorem readWithin_follows (limit room : Nat) :
    SlotsRelated (fun _ => Watched.Follows) (readWithin limit room)
      (readWithin (C := C) limit room) := by
  have congruent := Watched.Follows.congruent
  induction room with
  | zero =>
    apply readOne_related congruent congruent
    intro α bodyX bodyY body s
    rfl
  | succ room further =>
    apply readOne_related congruent congruent
    intro α bodyX bodyY body
    exact Watched.nested_follows limit (body _ _ further)

theorem readWithin_unhindered {limit' room room' : Nat} (raised : limit ≤ limit')
    (roomier : room ≤ room') :
    SlotsRelated (fun _ => Watched.Unhindered) (readWithin limit room)
      (readWithin (C := C) limit' room') := by
  have congruent := Watched.Unhindered.congruent
  induction room generalizing room' with
  | zero =>
    intro t slot
    rw [readWithin_eq, readWithin_eq]
    apply readOne_related congruent congruent
    intro α bodyX bodyY body s
    exact .inr ⟨limit, rfl⟩
  | succ room further =>
    obtain ⟨room', rfl⟩ := Nat.exists_eq_add_of_le' (Nat.le_trans (Nat.le_add_left 1 room) roomier)
    apply readOne_related congruent congruent
    intro α bodyX bodyY body
    exact Watched.nested_unhindered raised (body _ _ (further (Nat.le_of_succ_le_succ roomier)))

/-- Keeping a log changes nothing about what is read and where that ends. -/
theorem watchInto_follows (slot : Value C t) (log : Log) :
    mapState Log.reader (watchInto limit slot log) = readInto limit slot log.reader := by
  have followed := readWithin_follows limit limit t slot ⟨log, 0⟩
  have counted : decodeInto limit slot ⟨log.reader, 0⟩ = _ := followed.symm
  rw [watchInto, readInto, Leveled.fresh, Leveled.fresh, counted]
  cases readWithin limit limit t slot (⟨log, 0⟩ : Watched) <;> rfl

theorem verdictOf_watchInto (slot : Value C t) (log : Log) :
    verdictOf (watchInto limit slot log) = verdictOf (readInto limit slot log.reader) := by
  rw [← watchInto_follows, verdictOf_mapState]

/-- Under a higher limit decoding goes through the same moments, unless it missed a level. -/
theorem watchInto_of_raised {limit' : Nat} (raised : limit ≤ limit') (slot : Value C t) (log : Log)
    (within : ∀ max, verdictOf (watchInto limit slot log) ≠ .error (.depthExceeded max)) :
    watchInto limit' slot log = watchInto limit slot log := by
  rcases readWithin_unhindered raised raised t slot ⟨log, 0⟩ with alike | ⟨max, missed⟩
  · rw [watchInto, watchInto, Leveled.fresh, Leveled.fresh, alike]
  · refine absurd ?_ (within max)
    rw [watchInto, Leveled.fresh, verdictOf_mapState, missed]

end Data

end FlatCodec
