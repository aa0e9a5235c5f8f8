namespace FlatCodec

section Results

variable {ε σ τ α : Type}

def stateOf : EStateM.Result ε σ α → σ
  | .ok _ s => s
  | .error _ s => s

def verdictOf : EStateM.Result ε σ α → Except ε α
  | .ok a _ => .ok a
  | .error e _ => .error e

/-- The same result with another state, whichever way it ended. -/
def mapState (f : σ → τ) : EStateM.Result ε σ α → EStateM.Result ε τ α
  | .ok a s => .ok a (f s)
  | .error e s => .error e (f s)

@[simp] theorem mapState_ok (f : σ → τ) (a : α) (s : σ) :
    mapState f (.ok a s : EStateM.Result ε σ α) = .ok a (f s) := rfl

@[simp] theorem mapState_error (f : σ → τ) (e : ε) (s : σ) :
    mapState f (.error e s : EStateM.Result ε σ α) = .error e (f s) := rfl

@[simp] theorem stateOf_mapState (f : σ → τ) (result : EStateM.Result ε σ α) :
    stateOf (mapState f result) = f (stateOf result) := by
  cases result <;> rfl

@[simp] theorem verdictOf_mapState (f : σ → τ) (result : EStateM.Result ε σ α) :
    verdictOf (mapState f result) = verdictOf result := by
  cases result <;> rfl

end Results

section Sessions

variable {ε σ α τ : Type}

/-- Runs steps in order on one state and records what each answered and left behind. A step
that fails does not end the session: the next one starts from what it left. -/
def session (run : τ → EStateM ε σ α) : List τ → σ → List (EStateM.Result ε σ α)
  | [], _ => []
  | step :: steps, s =>
    match run step s with
    | .ok a s' => .ok a s' :: session run steps s'
    | .error e s' => .error e s' :: session run steps s'

/-- The state that a session ends in. -/
def after (run : τ → EStateM ε σ α) (steps : List τ) (s : σ) : σ :=
  steps.foldl (fun s step => stateOf (run step s)) s

@[simp] theorem after_nil (run : τ → EStateM ε σ α) (s : σ) : after run [] s = s := rfl

@[simp] theorem after_cons (run : τ → EStateM ε σ α) (step : τ) (steps : List τ) (s : σ) :
    after run (step :: steps) s = after run steps (stateOf (run step s)) := rfl

theorem after_append (run : τ → EStateM ε σ α) (steps later : List τ) (s : σ) :
    after run (steps ++ later) s = after run later (after run steps s) :=
  List.foldl_append

theorem session_cons (run : τ → EStateM ε σ α) (step : τ) (steps : List τ) (s : σ) :
    session run (step :: steps) s = run step s :: session run steps (stateOf (run step s)) := by
  rw [session]
  cases run step s <;> rfl

theorem session_append (run : τ → EStateM ε σ α) (steps later : List τ) (s : σ) :
    session run (steps ++ later) s =
      session run steps s ++ session run later (after run steps s) := by
  induction steps generalizing s with
  | nil => rfl
  | cons step steps ih => simp [session_cons, ih]

/-- What every step keeps, a session keeps. -/
theorem after_invariant {run : τ → EStateM ε σ α} {I : σ → Prop}
    (kept : ∀ step s, I s → I (stateOf (run step s))) (steps : List τ) {s : σ} (start : I s) :
    I (after run steps s) := by
  induction steps generalizing s with
  | nil => exact start
  | cons step steps ih => exact ih (kept step s start)

end Sessions

/-- A state with the states marked so far, the last one first. -/
structure Marked (σ : Type) where
  current : σ
  marks : List σ

namespace Marked

variable {ε σ α : Type}

/-- Acts on the current state and leaves the marks alone. -/
def lift (x : EStateM ε σ α) : EStateM ε (Marked σ) α := fun s =>
  mapState (⟨·, s.marks⟩) (x s.current)

@[simp] theorem stateOf_lift (x : EStateM ε σ α) (s : Marked σ) :
    stateOf (lift x s) = ⟨stateOf (x s.current), s.marks⟩ :=
  stateOf_mapState _ _

def save : Marked σ → Marked σ
  | ⟨s, marks⟩ => ⟨s, s :: marks⟩

/-- Returns to the mark set last, which is then gone. Without a mark there is nowhere to return
to, and the state stays. -/
def restore : Marked σ → Marked σ
  | ⟨s, []⟩ => ⟨s, []⟩
  | ⟨_, mark :: marks⟩ => ⟨mark, marks⟩

theorem eq_of_marks_save {s : Marked σ} {mark : σ} {marks : List σ}
    (set : s.save.marks = mark :: marks) : s = ⟨mark, marks⟩ := by
  obtain ⟨current, older⟩ := s
  obtain ⟨rfl, rfl⟩ := List.cons.inj set
  rfl

theorem marks_restore (s : Marked σ) : s.restore.marks = s.marks.tail := by
  obtain ⟨current, marks⟩ := s
  cases marks <;> rfl

theorem restore_of_marks {s : Marked σ} {mark : σ} {marks : List σ}
    (set : s.marks = mark :: marks) : s.restore = ⟨mark, marks⟩ := by
  obtain ⟨current, _⟩ := s
  obtain rfl := set
  rfl

/-- A state and its marks as they are kept elsewhere. -/
def map {τ : Type} (f : σ → τ) (s : Marked σ) : Marked τ := ⟨f s.current, s.marks.map f⟩

theorem map_restore {τ : Type} (f : σ → τ) (s : Marked σ) :
    (s.map f).restore = s.restore.map f := by
  obtain ⟨current, marks⟩ := s
  cases marks <;> rfl

/-- Whether all states have a property that a session can be in, now or once it returns to its
marks. -/
def All (P : σ → Prop) (s : Marked σ) : Prop := P s.current ∧ ∀ mark ∈ s.marks, P mark

variable {P : σ → Prop} {s : Marked σ}

theorem All.start {s : σ} (here : P s) : All P ⟨s, []⟩ := ⟨here, List.forall_mem_nil _⟩

theorem All.save (all : s.All P) : s.save.All P :=
  ⟨all.1, List.forall_mem_cons.mpr all⟩

/-- The marks count, since a return to one of them must lead to such a state again. -/
theorem All.restore (all : s.All P) : s.restore.All P := by
  obtain ⟨current, marks⟩ := s
  cases marks with
  | nil => exact all
  | cons mark marks => exact List.forall_mem_cons.mp all.2

end Marked

end FlatCodec
