import FlatCodec.Printer
import FlatCodec.Proofs.RoundTrip

namespace FlatCodec

open Reader

namespace Data

variable {C : Catalogue} {limit : Nat}

/-- Visitors are shown the same of values that agree. -/
theorem Agrees.view_eq {p : Part C.Name} {v w : Data C p} (h : v.Agrees w) : v.view = w.view := by
  induction h with
  | number k bits => rfl
  | bool b => rfl
  | text s => rfl
  | unit => rfl
  | seq _ ih => exact congrArg Item.sequence ih
  | box _ ih => exact ih
  | absent => rfl
  | present _ ih => exact congrArg (Item.union 1) ih
  | oneOf i _ ih => exact congrArg (Item.union i.val) ih
  | named _ ih => exact ih
  | nil => rfl
  | cons _ _ hd tl => exact congrArg₂ List.cons hd tl
  | done => rfl
  | visited _ _ hv hr => exact congrArg₂ List.cons hv hr
  | hidden v w _ hr => exact hr
  | on _ _ hv hr => exact congrArg (List.cons (Item.bool true)) (congrArg₂ List.cons hv hr)
  | off v w _ hr => exact congrArg (List.cons (Item.bool false)) hr
  | record _ ih => exact congrArg Item.composite ih
  | union i _ ih => exact congrArg (Item.union i.val) ih
  | uniform i _ ih => exact congrArg (Item.union i) ih

theorem agrees_of_view_eq {p : Part C.Name} {v w : Data C p} (same : v.view = w.view) :
    v.Agrees w := by
  -- The type fixes what is not seen: behind a view there is only one way to build the value.
  induction v with
  | number k bits =>
    cases w with | number _ bits' =>
    obtain rfl : bits = bits' := by simpa [view] using same
    exact .number k bits
  | bool b =>
    cases w with | bool b' =>
    obtain rfl : b = b' := by simpa [view] using same
    exact .bool b
  | text s =>
    cases w with | text s' =>
    obtain rfl : s = s' := by simpa [view] using same
    exact .text s
  | unit => cases w; exact .unit
  | seq vs ih => cases w with | seq ws => exact .seq (ih (Item.sequence.inj same))
  | box v ih => cases w with | box w => exact .box (ih same)
  | absent =>
    cases w with
    | absent => exact .absent
    | present w => simp [view] at same
  | present v ih =>
    cases w with
    | absent => simp [view] at same
    | present w => exact .present (ih (Item.union.inj same).2)
  | oneOf i v ih =>
    cases w with | oneOf j w =>
    obtain ⟨index, payload⟩ := Item.union.inj same
    obtain rfl := Fin.ext index
    exact .oneOf i (ih payload)
  | named v ih => cases w with | named w => exact .named (ih same)
  | nil =>
    cases w with
    | nil => exact .nil
    | cons w ws => simp [view] at same
  | cons v vs hv hvs =>
    cases w with
    | nil => simp [view] at same
    | cons w ws =>
      obtain ⟨head, tail⟩ := List.cons.inj same
      exact .cons (hv head) (hvs tail)
  | done => cases w; exact .done
  | visited v vs hv hvs =>
    cases w with | visited w ws =>
    obtain ⟨value, rest⟩ := List.cons.inj same
    exact .visited (hv value) (hvs rest)
  | hidden v vs hv hvs => cases w with | hidden w ws => exact .hidden v w (hvs same)
  | flagged b v vs hv hvs =>
    cases w with | flagged b' w ws =>
    cases b <;> cases b'
    · exact .off v w (hvs (List.cons.inj same).2)
    · simp [view] at same
    · simp [view] at same
    · obtain ⟨value, rest⟩ := List.cons.inj (List.cons.inj same).2
      exact .on (hv value) (hvs rest)
  | record vs ih => cases w with | record ws => exact .record (ih (Item.composite.inj same))
  | union i v ih =>
    cases w with | union j w =>
    obtain ⟨index, payload⟩ := Item.union.inj same
    obtain rfl := Fin.ext index
    exact .union i (ih payload)
  | uniform i v ih =>
    cases w with | uniform j w =>
    obtain ⟨rfl, payload⟩ := Item.union.inj same
    exact .uniform i (ih payload)

/-- Two values of one type agree exactly when a visitor is shown the same of both. -/
theorem agrees_iff_view_eq {p : Part C.Name} {v w : Data C p} :
    v.Agrees w ↔ v.view = w.view :=
  ⟨Agrees.view_eq, agrees_of_view_eq⟩

theorem refresh_view {p : Part C.Name} (v : Data C p) : v.refresh.view = v.view :=
  (refresh_agrees v).view_eq

variable {t : Ty C.Name} {v w : Value C t}

/-- Bytes tell everything that is visited: under whatever limits they were written, they are read
back, and only one thing is read from them. -/
theorem agrees_of_toBytesWith_eq {options options' : EncodeOptions} {bytes : List UInt8}
    (written : v.toBytesWith options = .ok bytes)
    (written' : w.toBytesWith options' = .ok bytes) : v.Agrees w := by
  have first := decodes_of_toBytesWith
    (toBytesWith_of_le (Nat.le_max_left options.maxDepth options'.maxDepth) written)
  have second := decodes_of_toBytesWith
    (toBytesWith_of_le (Nat.le_max_right options.maxDepth options'.maxDepth) written')
  have same : v.refresh = w.refresh := Except.ok.inj (first.symm.trans second)
  apply agrees_iff_view_eq.mpr
  rw [← refresh_view v, same, refresh_view w]

/-- Encoding and tracing see the visited parts and nothing else. Values that agree there have the
same bytes or the same error under every limit and the same trace; values with the same bytes
agree; and so the trace of what is read back is the trace of what was written. -/
theorem seen_iff_visited (t : Ty C.Name) :
    (∀ v w : Value C t, v.Agrees w →
      (∀ options : EncodeOptions, v.toBytesWith options = w.toBytesWith options) ∧
        v.trace = w.trace) ∧
    (∀ (v w : Value C t) (options options' : EncodeOptions) (bytes : List UInt8),
      v.toBytesWith options = .ok bytes → w.toBytesWith options' = .ok bytes → v.Agrees w) ∧
    ∀ (v : Value C t) (limit : Nat) (bytes : List UInt8),
      v.toBytesWith { maxDepth := limit } = .ok bytes →
        ∃ w, fromBytesWith t { maxDepth := limit } bytes = .ok w ∧ w.trace = v.trace := by
  refine ⟨?_, ?_, ?_⟩
  · intro v w agree
    have same : v.view = w.view := agrees_iff_view_eq.mp agree
    refine ⟨fun options => ?_, ?_⟩
    · rw [toBytesWith, toBytesWith, same]
    · rw [trace, trace, same]
  · intro v w options options' bytes written written'
    exact agrees_of_toBytesWith_eq written written'
  · intro v limit bytes written
    refine ⟨v.refresh, decodes_of_toBytesWith written, ?_⟩
    rw [trace, trace, refresh_view]

/-- A hidden text too long for its count byte is in neither the bytes nor the trace, and neither is
the body behind an unset flag; from the bytes both come back empty, and the trace is the same. -/
theorem seen_iff_visited_sample :
    (Sample.masked 5 (String.ofList (List.replicate 256 'x')) "é").toBytes =
        (Sample.masked 5 "" "é").toBytes ∧
    (Sample.cond false [7]).Agrees (Sample.cond false []) ∧
    ∃ w, fromBytes (C := sample) (.named .cond) [0] = .ok w ∧
      w.trace = (Sample.cond false [7]).trace := by
  refine ⟨?_, ?_, ?_⟩
  · obtain ⟨agreeing, -, -⟩ := seen_iff_visited (C := sample) (.named .masked)
    have agree (hidden : String) : (Sample.masked 5 hidden "é").Agrees (Sample.masked 5 "" "é") :=
      .named (.record (.visited (.number _ _) (.hidden _ _ (.visited (.text _) .done))))
    exact (agreeing _ _ (agree _)).1 {}
  · obtain ⟨-, telling, -⟩ := seen_iff_visited (C := sample) (.named .cond)
    have written (body : List (BitVec 16)) : (Sample.cond false body).toBytes = .ok [0] := rfl
    exact telling _ _ {} {} _ (written _) (written _)
  · obtain ⟨-, -, traced⟩ := seen_iff_visited (C := sample) (.named .cond)
    have written : (Sample.cond false [7]).toBytes = .ok [0] := rfl
    exact traced _ _ _ written

end Data

end FlatCodec
