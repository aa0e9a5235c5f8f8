import FlatCodec.Proofs.Consumption
import FlatCodec.Proofs.Levels

namespace FlatCodec

open Reader

section Reading

variable {α : Type} {x : Reading α} {p : Nat} {bytes left : List UInt8}

def result {ε σ : Type} (verdict : Except ε α) (s : σ) : EStateM.Result ε σ α :=
  match verdict with
  | .ok a => .ok a s
  | .error e => .error e s

@[simp] theorem stateOf_result {ε σ : Type} (verdict : Except ε α) (s : σ) :
    stateOf (result verdict s) = s := by
  cases verdict <;> rfl

@[simp] theorem mapState_result {ε σ τ : Type} (f : σ → τ) (verdict : Except ε α) (s : σ) :
    mapState f (result verdict s) = result verdict (f s) := by
  cases verdict <;> rfl

theorem result_inj {ε σ : Type} {verdict verdict' : Except ε α} {s s' : σ} :
    result verdict s = result verdict' s' ↔ verdict = verdict' ∧ s = s' := by
  cases verdict <;> cases verdict' <;> simp [result]

/-- More bytes were needed than were left. -/
def Starved : Except DecodeError α → Prop
  | .ok _ => False
  | .error e => e.group = .outOfBounds

/-- A reading ends in a verdict on exactly these bytes: with them at its place it ends so, whatever
comes behind them, and with only some of them it asks for more. -/
structure Settles (x : Reading α) (bytes : List UInt8) (verdict : Except DecodeError α) : Prop where
  followed : ∀ p left, x ⟨p, bytes ++ left⟩ = result verdict ⟨p + bytes.length, left⟩
  cut : ∀ p n, n < bytes.length → Starved (verdictOf (x ⟨p, bytes.take n⟩))

/-- What a reading comes to on some bytes, wherever they lie: it consumes a part of them, and unless
it asks for more, that part alone decides. -/
def Reaches (x : Reading α) (bytes : List UInt8) : Prop :=
  ∃ verdict part left, bytes = part ++ left ∧
    (∀ p, x ⟨p, bytes⟩ = result verdict ⟨p + part.length, left⟩) ∧
      (¬ Starved verdict → Settles x part verdict)

theorem starved_bind {β : Type} {f : α → Reading β} {r : Reader}
    (h : Starved (verdictOf (x r))) : Starved (verdictOf ((x >>= f) r)) := by
  rw [bind_apply]
  cases read : x r with
  | ok a r' =>
    rw [read] at h
    exact absurd h id
  | error e r' =>
    rw [read] at h
    exact h

theorem reaches_of_eq_result (verdict : Except DecodeError α)
    (h : ∀ r, x r = result verdict r) (bytes : List UInt8) : Reaches x bytes := by
  refine ⟨verdict, [], bytes, rfl, fun p => h _, fun _ => ⟨fun p left => h _, ?_⟩⟩
  intro p n inside
  cases inside

/-- What is read in one go is all there or is asked for. -/
theorem readBytes_reaches (n : Nat) (context : String) (bytes : List UInt8) :
    Reaches (readBytes n context) bytes := by
  by_cases enough : n ≤ bytes.length
  · have len : (bytes.take n).length = n := List.length_take_of_le enough
    refine ⟨.ok (bytes.take n), bytes.take n, bytes.drop n, (List.take_append_drop n bytes).symm,
      ?_, fun _ => ⟨?_, ?_⟩⟩
    · intro p
      exact readBytes_eq_ok_iff.mpr ⟨len, (List.take_append_drop n bytes).symm, rfl⟩
    · intro p left
      exact readBytes_eq_ok_iff.mpr ⟨len, rfl, rfl⟩
    · intro p k short
      have few : ¬ n ≤ remaining ⟨p, (bytes.take n).take k⟩ := by
        simp only [remaining, List.length_take]
        omega
      rw [readBytes_run, if_neg few]
      rfl
  · refine ⟨.error (.outOfBounds context n bytes.length), [], bytes, rfl, ?_, ?_⟩
    · intro p
      rw [readBytes_run]
      exact if_neg enough
    · intro fed
      exact absurd rfl fed

theorem readByte_eq_bind (context : String) :
    readByte context = do return (← readBytes 1 context).headD 0 := by
  funext r
  rcases r with ⟨p, _ | ⟨b, rest⟩⟩ <;> rfl

/-- One verdict after another: what decides both are the parts that decide each, in a row. -/
theorem Settles.bind {β : Type} {f : α → Reading β} {a : α} {more : List UInt8}
    {verdict : Except DecodeError β} (first : Settles x bytes (.ok a))
    (second : Settles (f a) more verdict) : Settles (x >>= f) (bytes ++ more) verdict := by
  refine ⟨?_, ?_⟩
  · intro p left
    have read := first.followed p (more ++ left)
    rw [List.append_assoc, bind_of_ok read, second.followed, List.length_append, Nat.add_assoc]
  · intro p n short
    -- A cut among the first bytes starves the first reading, one behind them the second.
    by_cases inside : n < bytes.length
    · rw [List.take_append_of_le_length (Nat.le_of_lt inside)]
      exact starved_bind (first.cut p n inside)
    · have beyond : bytes.length ≤ n := Nat.le_of_not_lt inside
      have read := first.followed p (more.take (n - bytes.length))
      rw [List.take_append, List.take_of_length_le beyond, bind_of_ok read]
      rw [List.length_append] at short
      exact second.cut _ _ (by omega)

theorem Reaches.bind {β : Type} {f : α → Reading β} (first : Reaches x bytes)
    (next : ∀ a bytes, Reaches (f a) bytes) : Reaches (x >>= f) bytes := by
  obtain ⟨verdict, part, left, rfl, ends, settled⟩ := first
  cases verdict with
  | error e =>
    have failed (r r' : Reader) (h : x r = .error e r') : (x >>= f) r = .error e r' :=
      bind_of_error h
    refine ⟨.error e, part, left, rfl, fun p => failed _ _ (ends p), fun fed => ?_⟩
    have settled := settled fed
    refine ⟨fun p left => failed _ _ (settled.followed p left), fun p n short => ?_⟩
    exact starved_bind (settled.cut p n short)
  | ok a =>
    -- The second reading starts on what the first has left, wherever that lies.
    obtain ⟨verdict, more, left, rfl, endsNext, settledNext⟩ := next a left
    refine ⟨verdict, part ++ more, left, (List.append_assoc ..).symm, fun p => ?_, fun fed => ?_⟩
    · rw [bind_of_ok (ends p), endsNext, List.length_append, Nat.add_assoc]
    · exact (settled id).bind (settledNext fed)

theorem Sequential.reaches (h : Sequential x) (bytes : List UInt8) : Reaches x bytes := by
  induction h generalizing bytes with
  | answer a => exact reaches_of_eq_result (.ok a) (fun r => rfl) bytes
  | @refuse _ e judged => exact reaches_of_eq_result (.error e) (fun r => rfl) bytes
  | byte context =>
    rw [readByte_eq_bind]
    exact (readBytes_reaches 1 context bytes).bind fun bs =>
      reaches_of_eq_result (.ok _) (fun r => rfl)
  | bytes n context => exact readBytes_reaches n context bytes
  | bind _ _ first next => exact (first bytes).bind fun a bytes => next a bytes

/-- A reading reads on from where it is, however it ends. -/
theorem Sequential.consumes (h : Sequential x) (r : Reader) :
    ∃ part, Consumed r part (stateOf (x r)) := by
  obtain ⟨verdict, part, left, rest, reached, -⟩ := h.reaches r.rest
  have ends := reached r.position
  rw [ends, stateOf_result]
  exact ⟨part, rest, rfl⟩

/-- A reading goes by the bytes behind its place alone, and only moves on from it. -/
theorem Sequential.relative (h : Sequential x) (r : Reader) :
    x r = mapState (fun r' => ⟨r.position + r'.position, r'.rest⟩) (x (ofBytes r.rest)) := by
  obtain ⟨verdict, part, left, -, reached, -⟩ := h.reaches r.rest
  have here := reached r.position
  have alone := reached 0
  rw [ofBytes, alone, mapState_result, Nat.zero_add]
  exact here

/-- Where a reading has stopped without asking for more, the bytes behind it settled its verdict. -/
theorem Sequential.settles {verdict : Except DecodeError α} {r : Reader} (h : Sequential x)
    (ends : x (ofBytes bytes) = result verdict r) (fed : ¬ Starved verdict) :
    ∃ part left, bytes = part ++ left ∧ r = ⟨part.length, left⟩ ∧ Settles x part verdict := by
  obtain ⟨verdict', part, left, rfl, reached, settled⟩ := h.reaches bytes
  obtain ⟨rfl, rfl⟩ := result_inj.mp (ends.symm.trans (reached 0))
  exact ⟨part, left, rfl, by rw [Nat.zero_add], settled fed⟩

theorem Sequential.settles_ok {a : α} {r : Reader} (h : Sequential x)
    (read : x (ofBytes bytes) = .ok a r) :
    ∃ part left, bytes = part ++ left ∧ r = ⟨part.length, left⟩ ∧ Settles x part (.ok a) :=
  h.settles read id

end Reading

end FlatCodec
