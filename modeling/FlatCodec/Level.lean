import FlatCodec.Session

namespace FlatCodec

/-- A state with the number of levels of sequences, unions and composites that are open in it. -/
structure Leveled (σ : Type) where
  state : σ
  depth : Nat

namespace Leveled

variable {ε σ α : Type}

/-- Acts on the state where no level is opened or closed. -/
def lift (x : EStateM ε σ α) : EStateM ε (Leveled σ) α := fun s =>
  mapState (⟨·, s.depth⟩) (x s.state)

def close (s : Leveled σ) : Leveled σ := { s with depth := s.depth - 1 }

/-- Runs what lies one level further in, unless the open levels reach the limit. The level is
closed again whichever way that ends. -/
def nested (limit : Nat) (full : ε) (body : EStateM ε (Leveled σ) α) : EStateM ε (Leveled σ) α :=
  fun s =>
    if s.depth < limit then mapState close (body { s with depth := s.depth + 1 })
    else .error full s

@[simp] theorem lift_run (x : EStateM ε σ α) (s : σ) (d : Nat) :
    lift x ⟨s, d⟩ = mapState (⟨·, d⟩) (x s) := rfl

@[simp] theorem close_mk (s : σ) (d : Nat) : close ⟨s, d⟩ = ⟨s, d - 1⟩ := rfl

/-- Runs on a state in which no level is open. -/
def fresh (x : EStateM ε (Leveled σ) α) : EStateM ε σ α := fun s => mapState state (x ⟨s, 0⟩)

end Leveled

end FlatCodec
