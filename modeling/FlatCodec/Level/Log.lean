import FlatCodec.Value.Read

namespace FlatCodec

/-- How many levels are open while the reader is at a place. -/
structure Moment where
  levels : Nat
  position : Nat
  deriving DecidableEq, Repr

/-- A reader with the moments that it has been through, the last one first. -/
structure Log where
  reader : Reader
  moments : List Moment

/-- A decoder that takes down every moment at which it has read something, or opened or closed a
level. Nothing else changes what is open or where the reader is. -/
abbrev Watched := Leveled Log

abbrev Watching (α : Type) := EStateM DecodeError Watched α

namespace Watched

def position (s : Watched) : Nat := s.state.reader.position

def moments (s : Watched) : List Moment := s.state.moments

/-- The decoder without its log. -/
def forget (s : Watched) : Decoder := ⟨s.state.reader, s.depth⟩

def noted (s : Watched) : Watched :=
  { s with state := { s.state with moments := ⟨s.depth, s.position⟩ :: s.moments } }

/-- A moment is taken down also where a read fails or no level is left. -/
instance : Cursor DecodeError Watched where
  failure e := e
  reading x := fun s =>
    mapState noted
      (Leveled.lift (fun log => mapState ({ log with reader := · }) (x.run log.reader)) s)
  nested limit body := fun s =>
    mapState noted (Leveled.nested limit (.depthExceeded limit) (fun s => body (noted s)) s)

/-- The decoder with one more level open. -/
def opened (s : Watched) : Watched := noted { s with depth := s.depth + 1 }

theorem reading_run {α : Type} (x : Read α) (s : Watched) :
    (Cursor.reading x : Watching α) s =
      mapState (fun r => noted ⟨⟨r, s.moments⟩, s.depth⟩) (x.run s.state.reader) := by
  show mapState _ (mapState _ (mapState _ (x.run s.state.reader))) = _
  cases x.run s.state.reader <;> rfl

theorem nested_run {α : Type} (limit : Nat) (x : Watching α) (s : Watched) :
    Cursor.nested limit x s =
      if s.depth < limit then mapState (fun s => noted s.close) (x s.opened)
      else .error (.depthExceeded limit) s.noted := by
  show mapState noted (if s.depth < limit then mapState _ (x s.opened) else _) = _
  by_cases free : s.depth < limit
  · rw [if_pos free, if_pos free]
    cases x s.opened <;> rfl
  · rw [if_neg free, if_neg free]
    rfl

end Watched

/-- Reads a value into a slot and takes down the moments that reading it goes through. -/
def Data.watchInto {C : Catalogue} {t : Ty C.Name} (limit : Nat) (slot : Value C t) :
    EStateM DecodeError Log (Value C t) :=
  Leveled.fresh (readWithin limit limit t slot)

end FlatCodec
