import FlatCodec.Level.Log
import FlatCodec.Proofs.Settlement

namespace FlatCodec

open Reader

section Costs

variable {ν : Type}

/-- With so many levels to spare, a value of the type can be read if every byte that is read pays
for two levels more; what a name needs to spare is its cost. -/
def Ty.Affordable (cost : ν → Nat) : Ty ν → (spare : Nat) → Prop
  | number _, _ => True
  | bool, _ => True
  | text, _ => True
  | unit, spare => 1 ≤ spare
  | seq t, spare => t.Affordable cost (spare + 1)
  | box t, spare => t.Affordable cost spare
  | option t, spare => t.Affordable cost (spare + 1)
  | oneOf _ alternatives, spare => ∀ i, (alternatives i).Affordable cost (spare + 1)
  | named n, spare => cost n ≤ spare

instance Ty.decidableAffordable (cost : ν → Nat) :
    (t : Ty ν) → (spare : Nat) → Decidable (t.Affordable cost spare)
  | number _, _ => isTrue trivial
  | bool, _ => isTrue trivial
  | text, _ => isTrue trivial
  | unit, spare => inferInstanceAs (Decidable (1 ≤ spare))
  | seq t, spare => decidableAffordable cost t (spare + 1)
  | box t, spare => decidableAffordable cost t spare
  | option t, spare => decidableAffordable cost t (spare + 1)
  | oneOf k alternatives, spare =>
    have (i : Fin (k + 1)) : Decidable ((alternatives i).Affordable cost (spare + 1)) :=
      decidableAffordable cost (alternatives i) (spare + 1)
    inferInstanceAs (Decidable (∀ i, (alternatives i).Affordable cost (spare + 1)))
  | named n, spare => inferInstanceAs (Decidable (cost n ≤ spare))

/-- A hidden field is never read. -/
def Field.Affordable (cost : ν → Nat) (spare : Nat) : Field ν → Prop
  | visited t => t.Affordable cost spare
  | hidden _ => True
  | flagged t => t.Affordable cost spare

instance (cost : ν → Nat) (spare : Nat) : DecidablePred (Field.Affordable cost spare)
  | .visited t => inferInstanceAs (Decidable (t.Affordable cost spare))
  | .hidden _ => isTrue trivial
  | .flagged t => inferInstanceAs (Decidable (t.Affordable cost spare))

/-- A record opens its level before it reads anything, a union behind its tag. -/
def Decl.Affordable (cost : ν → Nat) : Decl ν → (spare : Nat) → Prop
  | record _, 0 => False
  | record fields, spare + 1 => ∀ f ∈ fields, f.Affordable cost spare
  | union _ alternatives, spare => ∀ i, (alternatives i).Affordable cost (spare + 1)
  | uniform _ t, spare => t.Affordable cost (spare + 1)

instance Decl.decidableAffordable (cost : ν → Nat) :
    (d : Decl ν) → (spare : Nat) → Decidable (d.Affordable cost spare)
  | record _, 0 => isFalse id
  | record fields, spare + 1 => inferInstanceAs (Decidable (∀ f ∈ fields, f.Affordable cost spare))
  | union k alternatives, spare =>
    inferInstanceAs (Decidable (∀ i : Fin (k + 1), (alternatives i).Affordable cost (spare + 1)))
  | uniform _ t, spare => inferInstanceAs (Decidable (t.Affordable cost (spare + 1)))

/-- Where no name costs more than two levels, no type does. -/
theorem Ty.affordable_of_cost_le {cost : ν → Nat} (cheap : ∀ n, cost n ≤ 2) (t : Ty ν)
    {spare : Nat} (enough : 2 ≤ spare) : t.Affordable cost spare := by
  induction t generalizing spare with
  | number k => trivial
  | bool => trivial
  | text => trivial
  | unit => exact Nat.le_of_succ_le enough
  | seq t ih => exact ih (Nat.le_succ_of_le enough)
  | box t ih => exact ih enough
  | option t ih => exact ih (Nat.le_succ_of_le enough)
  | oneOf k alternatives ih => exact fun i => ih i (Nat.le_succ_of_le enough)
  | named n => exact Nat.le_trans (cheap n) enough

end Costs

/-- What each name of a catalogue may spend before a byte is read: enough for what it stands for,
and never more than two levels. -/
structure Catalogue.Prices (C : Catalogue) where
  cost : C.Name → Nat
  enough : ∀ n, (C.decl n).Affordable cost (cost n)
  cheap : ∀ n, cost n ≤ 2

namespace Read

variable {α : Type}

theorem position_le_run (x : Read α) (r : Reader) : r.position ≤ (stateOf (x.run r)).position := by
  obtain ⟨part, consumed⟩ := (Sequential.run x).consumes r
  rw [consumed.position]
  exact Nat.le_add_right _ _

/-- No level is opened for a read, so none is missed there. -/
theorem unmissed (x : Read α) (r : Reader) (max : Nat) :
    verdictOf (x.run r) ≠ .error (.depthExceeded max) := by
  have bytes (n : Nat) (context : String) :
      verdictOf (readBytes n context r) ≠ .error (.depthExceeded max) := by
    rw [readBytes_run]
    split <;> simp [verdictOf]
  cases x with
  | byte context =>
    obtain ⟨p, rest⟩ := r
    cases rest <;> simp [verdictOf]
  | bytes n context => exact bytes n context
  | array n context => exact bytes n context

end Read

/-- So many levels at a place are paid for: two by each byte since the start, and two by nothing. -/
def Paid (start levels position : Nat) : Prop :=
  start ≤ position ∧ levels ≤ 2 * (position - start) + 2

namespace Watched

variable {α β : Type} {start limit opened spare : Nat}

/-- The levels that are open at a place and so many more are paid for, and all levels were paid for
at every moment before. -/
structure Funded (start opened spare : Nat) (s : Watched) : Prop where
  depth : s.depth = opened
  paid : Paid start (opened + spare) s.position
  noted : ∀ m ∈ s.moments, Paid start m.levels m.position

/-- What is paid for at one place is so further on, where only some of the levels may be open. -/
theorem Funded.later {s : Watched} (funded : Funded start opened spare s) {levels position : Nat}
    (onward : s.position ≤ position) (within : levels ≤ opened + spare) :
    Paid start levels position := by
  obtain ⟨reached, enough⟩ := funded.paid
  exact ⟨by omega, by omega⟩

/-- A run that went only through moments at which all levels were paid for. It has closed what it
opened and gone on, and where it missed a level, that would have been paid for too. -/
structure RanPaid (start limit : Nat) (s : Watched)
    (ended : EStateM.Result DecodeError Watched α) : Prop where
  closed : (stateOf ended).depth = s.depth
  onward : s.position ≤ (stateOf ended).position
  noted : ∀ m ∈ (stateOf ended).moments, Paid start m.levels m.position
  missed : ∀ max, verdictOf ended = .error (.depthExceeded max) →
    Paid start (limit + 1) (stateOf ended).position

/-- Wherever so many levels more are paid for, a decoding pays for what it opens. -/
def Paced (start limit opened spare : Nat) (x : Watching α) : Prop :=
  ∀ s, Funded start opened spare s → RanPaid start limit s (x s)

theorem RanPaid.funded {s s' : Watched} {a : α}
    (ran : RanPaid start limit s (.ok a s' : EStateM.Result DecodeError Watched α))
    (funded : Funded start opened spare s) : Funded start opened spare s' where
  depth := ran.closed.trans funded.depth
  paid := funded.later ran.onward (Nat.le_refl _)
  noted := ran.noted

namespace Paced

theorem answer (a : α) : Paced start limit opened spare (pure a) := by
  intro s funded
  refine ⟨rfl, Nat.le_refl _, funded.noted, ?_⟩
  intro max missed
  cases missed

theorem refuse {e : DecodeError} (judged : ∀ max, e ≠ .depthExceeded max) :
    Paced start limit opened spare (Cursor.refuse e : Watching α) := by
  intro s funded
  refine ⟨rfl, Nat.le_refl _, funded.noted, ?_⟩
  intro max missed
  exact absurd (Except.error.inj missed) (judged max)

theorem refuse_tag (tag : UInt8) (alternatives : Nat) :
    Paced start limit opened spare (Cursor.refuse (.invalidTag tag alternatives) : Watching α) :=
  refuse fun max => by simp

/-- What follows may have other levels to spare, where the first leaves it those. -/
theorem bind_of {x : Watching α} {f : α → Watching β} {left : Nat}
    (first : Paced start limit opened spare x)
    (leaves : ∀ s a s', Funded start opened spare s → x s = .ok a s' → Funded start opened left s')
    (next : ∀ a, Paced start limit opened left (f a)) :
    Paced start limit opened spare (x >>= f) := by
  intro s funded
  have ran := first s funded
  rw [bind_apply]
  cases ended : x s with
  | error e s' =>
    rw [ended] at ran
    refine ⟨ran.closed, ran.onward, ran.noted, ?_⟩
    intro max missed
    obtain rfl : e = .depthExceeded max := Except.error.inj missed
    exact ran.missed max rfl
  | ok a s' =>
    rw [ended] at ran
    have later := next a s' (leaves s a s' funded ended)
    exact ⟨later.closed.trans ran.closed, Nat.le_trans ran.onward later.onward, later.noted,
      later.missed⟩

theorem bind {x : Watching α} {f : α → Watching β}
    (first : Paced start limit opened spare x)
    (next : ∀ a, Paced start limit opened spare (f a)) :
    Paced start limit opened spare (x >>= f) := by
  refine first.bind_of ?_ next
  intro s a s' funded ended
  have ran := first s funded
  rw [ended] at ran
  exact ran.funded funded

/-- What can be read with less to spare can be read with more. -/
theorem mono {less : Nat} {x : Watching α} (paced : Paced start limit opened less x)
    (more : less ≤ spare) : Paced start limit opened spare x := by
  intro s funded
  have enough : opened + less ≤ opened + spare := Nat.add_le_add_left more _
  exact paced s ⟨funded.depth, funded.later (Nat.le_refl _) enough, funded.noted⟩

theorem reading (x : Read α) : Paced start limit opened spare (Cursor.reading x) := by
  intro s funded
  have onward : s.position ≤ (stateOf (x.run s.state.reader)).position := x.position_le_run _
  have within : s.depth ≤ opened + spare := funded.depth ▸ Nat.le_add_right _ _
  rw [reading_run]
  refine ⟨?_, ?_, ?_, ?_⟩
  · rw [stateOf_mapState]
    rfl
  · rw [stateOf_mapState]
    exact onward
  · rw [stateOf_mapState]
    exact List.forall_mem_cons.mpr ⟨funded.later onward within, funded.noted⟩
  · intro max missed
    rw [verdictOf_mapState] at missed
    exact absurd missed (x.unmissed _ max)

theorem readNumber (k : Number) : Paced start limit opened spare (readNumber k) :=
  (reading _).bind fun _ => .answer _

theorem readBool : Paced start limit opened spare readBool := by
  refine (reading _).bind fun b => ?_
  split
  · exact .answer false
  · exact .answer true
  · exact .refuse fun max => by simp

theorem readText : Paced start limit opened spare readText := by
  rw [FlatCodec.readText, readCount_bind]
  refine (reading _).bind fun size => (reading _).bind fun bytes => ?_
  split
  · exact .answer _
  · exact .refuse fun max => by simp

/-- A byte that was read pays for two levels. -/
theorem paying (context : String) {f : UInt8 → Watching β}
    (next : ∀ b, Paced start limit opened (spare + 2) (f b)) :
    Paced start limit opened spare (Cursor.reading (.byte context) >>= f) := by
  have first : Paced start limit opened spare (Cursor.reading (.byte context)) := reading _
  refine first.bind_of ?_ next
  intro s b s' funded ended
  have ran := first s funded
  rw [ended] at ran
  obtain ⟨reached, enough⟩ := funded.paid
  have further : s.position < s'.position := by
    rw [reading_run, Read.run_byte] at ended
    cases read : readByte context s.state.reader with
    | error e r =>
      rw [read] at ended
      cases ended
    | ok b r =>
      rw [read] at ended
      obtain ⟨-, rfl⟩ := EStateM.Result.ok.inj ended
      exact (readByte_eq_ok_iff.mp read).passed
  exact ⟨ran.closed.trans funded.depth, ⟨by omega, by omega⟩, ran.noted⟩

/-- A level that is opened is taken out of what there is to spare. -/
theorem nested {x : Watching α} (paced : Paced start limit (opened + 1) spare x) :
    Paced start limit opened (spare + 1) (Cursor.nested limit x) := by
  intro s funded
  have depth := funded.depth
  have within : s.depth + 1 ≤ opened + (spare + 1) := by omega
  rw [nested_run]
  by_cases free : s.depth < limit
  · have inner : Funded start (opened + 1) spare s.opened := by
      refine ⟨congrArg (· + 1) depth, ?_, List.forall_mem_cons.mpr ⟨?_, funded.noted⟩⟩
      · exact funded.later (Nat.le_refl _) (by omega)
      · exact funded.later (Nat.le_refl _) within
    have ran := paced s.opened inner
    have onward : s.position ≤ (stateOf (x s.opened)).position := ran.onward
    have closed : (stateOf (x s.opened)).close.depth = s.depth :=
      congrArg (· - 1) ran.closed
    have few : (stateOf (x s.opened)).close.depth ≤ opened + (spare + 1) := by omega
    rw [if_pos free]
    refine ⟨?_, ?_, ?_, ?_⟩
    · rw [stateOf_mapState]
      exact closed
    · rw [stateOf_mapState]
      exact onward
    · rw [stateOf_mapState]
      exact List.forall_mem_cons.mpr ⟨funded.later onward few, ran.noted⟩
    · intro max missed
      rw [verdictOf_mapState] at missed
      rw [stateOf_mapState]
      exact ran.missed max missed
  · -- The level that is missed is the one there was to spare.
    rw [if_neg free]
    refine ⟨rfl, Nat.le_refl _, ?_, ?_⟩
    · exact List.forall_mem_cons.mpr
        ⟨funded.later (Nat.le_refl _) (Nat.le_of_succ_le within), funded.noted⟩
    · intro max missed
      exact funded.later (Nat.le_refl _) (by omega)

/-- Where no level is left, the one that is missed was there to spare. -/
theorem missing (full : limit ≤ opened) :
    Paced start limit opened (spare + 1)
      (Cursor.refuse (.depthExceeded limit) : Watching α) := by
  intro s funded
  refine ⟨rfl, Nat.le_refl _, funded.noted, ?_⟩
  intro max missed
  exact funded.later (Nat.le_refl _) (by omega)

end Paced

end Watched

end FlatCodec
