import FlatCodec.Session

namespace FlatCodec

variable {ε σ α β : Type} {x : EStateM ε σ α} {f : α → EStateM ε σ β} {s s' : σ}

@[simp] theorem pure_apply (a : α) : (pure a : EStateM ε σ α) s = .ok a s := rfl

@[simp] theorem throw_apply (e : ε) : (throw e : EStateM ε σ α) s = .error e s := rfl

theorem bind_apply : (x >>= f) s =
    match x s with
    | .ok a s' => f a s'
    | .error e s' => .error e s' := by
  simp only [bind, EStateM.bind]
  cases x s <;> rfl

theorem bind_of_ok {a : α} (h : x s = .ok a s') : (x >>= f) s = f a s' := by
  rw [bind_apply, h]

theorem bind_of_error {e : ε} (h : x s = .error e s') : (x >>= f) s = .error e s' := by
  rw [bind_apply, h]

theorem bind_eq_ok {b : β} :
    (x >>= f) s = .ok b s' ↔ ∃ a m, x s = .ok a m ∧ f a m = .ok b s' := by
  rw [bind_apply]
  cases x s <;> simp [and_assoc]

theorem bind_pure_eq_ok {f : α → β} {b : β} :
    (x >>= fun a => pure (f a)) s = .ok b s' ↔ ∃ a, x s = .ok a s' ∧ f a = b := by
  rw [bind_eq_ok]
  simp only [pure_apply, EStateM.Result.ok.injEq]
  refine ⟨?_, ?_⟩
  · intro h
    obtain ⟨a, m, first, value, rfl⟩ := h
    exact ⟨a, first, value⟩
  · intro h
    obtain ⟨a, first, value⟩ := h
    exact ⟨a, s', first, value, rfl⟩

theorem map_apply {f : α → β} : (f <$> x) s =
    match x s with
    | .ok a s' => .ok (f a) s'
    | .error e s' => .error e s' := by
  simp only [Functor.map, EStateM.map]
  cases x s <;> rfl

theorem map_of_ok {f : α → β} {a : α} (h : x s = .ok a s') : (f <$> x) s = .ok (f a) s' := by
  rw [map_apply, h]

@[simp] theorem stateOf_map (f : α → β) (x : EStateM ε σ α) (s : σ) :
    stateOf ((f <$> x) s) = stateOf (x s) := by
  rw [map_apply]
  cases x s <;> rfl

@[simp] theorem verdictOf_map (f : α → β) (x : EStateM ε σ α) (s : σ) :
    verdictOf ((f <$> x) s) = (verdictOf (x s)).map f := by
  rw [map_apply]
  cases x s <;> rfl

end FlatCodec
