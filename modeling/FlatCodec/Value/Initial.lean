import FlatCodec.Value

namespace FlatCodec

namespace Data

variable {C : Catalogue}

/-- What the names below a rank stand for initially. -/
abbrev Settled (C : Catalogue) (r : Nat) : Type :=
  ∀ n, C.rank n < r → Data C (.body (C.decl n))

def settledOne {r : Nat} (below : Settled C r) : (t : Ty C.Name) → t.rank C.rank ≤ r → Value C t
  | .number k, _ => .number k 0
  | .bool, _ => .bool false
  | .text, _ => .text ""
  | .unit, _ => .unit
  | .seq _, _ => .seq .nil
  | .box t, h => .box (settledOne below t h)
  | .option _, _ => .absent
  | .oneOf k alternatives, h => .oneOf (first k) (settledOne below (alternatives (first k)) h)
  | .named n, h => .named (below n h)

def settledFields {r : Nat} (below : Settled C r) :
    (fs : List (Field C.Name)) → Decl.fieldsRank C.rank fs ≤ r → Data C (.fields fs)
  | [], _ => .done
  | .visited t :: fs, h =>
    .visited (settledOne below t (Nat.le_trans (Nat.le_max_left ..) h))
      (settledFields below fs (Nat.le_trans (Nat.le_max_right ..) h))
  | .hidden t :: fs, h =>
    .hidden (settledOne below t (Nat.le_trans (Nat.le_max_left ..) h))
      (settledFields below fs (Nat.le_trans (Nat.le_max_right ..) h))
  | .flagged t :: fs, h =>
    .flagged false (settledOne below t (Nat.le_trans (Nat.le_max_left ..) h))
      (settledFields below fs (Nat.le_trans (Nat.le_max_right ..) h))

def settledBody {r : Nat} (below : Settled C r) :
    (d : Decl C.Name) → d.rank C.rank ≤ r → Data C (.body d)
  | .record fs, h => .record (settledFields below fs h)
  | .union k alternatives, h => .union (first k) (settledOne below (alternatives (first k)) h)
  | .uniform _ t, h => .uniform 0 (settledOne below t h)

/-- The names of each rank need only those of lower ranks, so all are settled in turn. -/
def settled : (r : Nat) → Settled C r
  | 0 => fun _ h => absurd h (Nat.not_lt_zero _)
  | r + 1 => fun n h =>
    settledBody (settled r) (C.decl n) (Nat.le_trans (C.settled n) (Nat.le_of_lt_succ h))

/-- Where a value begins before anything is decoded into it: numbers are zero, texts and
sequences empty, options absent, and unions hold their first alternative. -/
def initial (t : Ty C.Name) : Value C t := settledOne (settled (t.rank C.rank)) t (Nat.le_refl _)

def initialFields : (fs : List (Field C.Name)) → Data C (.fields fs)
  | [] => .done
  | .visited t :: fs => .visited (initial t) (initialFields fs)
  | .hidden t :: fs => .hidden (initial t) (initialFields fs)
  | .flagged t :: fs => .flagged false (initial t) (initialFields fs)

def initialBody : (d : Decl C.Name) → Data C (.body d)
  | .record fs => .record (initialFields fs)
  | .union k alternatives => .union (first k) (initial (alternatives (first k)))
  | .uniform _ t => .uniform 0 (initial t)

private theorem settledOne_eq {r s : Nat} {a : Settled C r} {b : Settled C s}
    (h : ∀ n hr hs, a n hr = b n hs) (t : Ty C.Name) (hr hs) :
    settledOne a t hr = settledOne b t hs := by
  induction t with
  | box t ih => exact congrArg Data.box (ih hr hs)
  | oneOf k alternatives ih => exact congrArg (Data.oneOf (first k)) (ih (first k) hr hs)
  | named n => exact congrArg Data.named (h n hr hs)
  | _ => rfl

private theorem settledFields_eq {r s : Nat} {a : Settled C r} {b : Settled C s}
    (h : ∀ n hr hs, a n hr = b n hs) (fs : List (Field C.Name)) (hr hs) :
    settledFields a fs hr = settledFields b fs hs := by
  induction fs with
  | nil => rfl
  | cons f fs ih =>
    cases f <;> simp only [settledFields] <;>
      rw [settledOne_eq h _ _ (Nat.le_trans (Nat.le_max_left ..) hs),
        ih _ (Nat.le_trans (Nat.le_max_right ..) hs)]

private theorem settledBody_eq {r s : Nat} {a : Settled C r} {b : Settled C s}
    (h : ∀ n hr hs, a n hr = b n hs) (d : Decl C.Name) (hr hs) :
    settledBody a d hr = settledBody b d hs := by
  cases d with
  | record fs => exact congrArg Data.record (settledFields_eq h fs hr hs)
  | union k alternatives => exact congrArg (Data.union (first k)) (settledOne_eq h _ hr hs)
  | uniform k t => exact congrArg (Data.uniform 0) (settledOne_eq h t hr hs)

/-- What is settled for a name does not hang on the rank up to which names were settled. -/
theorem settled_eq (r s : Nat) (n : C.Name) (hr : C.rank n < r) (hs : C.rank n < s) :
    settled r n hr = settled s n hs := by
  induction r generalizing s n with
  | zero => exact absurd hr (Nat.not_lt_zero _)
  | succ r ih =>
    cases s with
    | zero => exact absurd hs (Nat.not_lt_zero _)
    | succ s => exact settledBody_eq (fun n hr hs => ih s n hr hs) _ _ _

theorem settledOne_eq_initial {r : Nat} (t : Ty C.Name) (h : t.rank C.rank ≤ r) :
    settledOne (settled r) t h = initial t :=
  settledOne_eq (fun n hr hs => settled_eq r _ n hr hs) t h _

theorem settledFields_eq_initialFields {r : Nat} (fs : List (Field C.Name))
    (h : Decl.fieldsRank C.rank fs ≤ r) : settledFields (settled r) fs h = initialFields fs := by
  induction fs with
  | nil => rfl
  | cons f fs ih => cases f <;> simp [settledFields, initialFields, settledOne_eq_initial, ih]

theorem settledBody_eq_initialBody {r : Nat} (d : Decl C.Name) (h : d.rank C.rank ≤ r) :
    settledBody (settled r) d h = initialBody d := by
  cases d with
  | record fs => exact congrArg Data.record (settledFields_eq_initialFields fs h)
  | union k alternatives => exact congrArg (Data.union (first k)) (settledOne_eq_initial _ h)
  | uniform k t => exact congrArg (Data.uniform 0) (settledOne_eq_initial t h)

@[simp] theorem initial_box (t : Ty C.Name) : initial (C := C) (.box t) = .box (initial t) := rfl

@[simp] theorem initial_oneOf (k : Nat) (alternatives : Fin (k + 1) → Ty C.Name) :
    initial (C := C) (.oneOf k alternatives) =
      .oneOf (first k) (initial (alternatives (first k))) := rfl

@[simp] theorem initial_named (n : C.Name) : initial (.named n) = .named (initialBody (C.decl n)) :=
  congrArg Data.named (settledBody_eq_initialBody _ _)

end Data

end FlatCodec
