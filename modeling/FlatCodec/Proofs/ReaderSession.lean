import FlatCodec.Proofs.IndexedReader

namespace FlatCodec

namespace Reader

variable {data : List UInt8} {start : Reader} {s : Marked Reader}

/-- How many bytes a step asks for, and what it calls them. -/
def Step.request? : Step → Option (Nat × String)
  | byte context => some (1, context)
  | count context => some (1, context)
  | bytes n context => some (n, context)
  | save => none
  | restore => none

/-- How a step answers with the bytes that it was given. -/
def Step.answer : Step → List UInt8 → Answer
  | byte _, [b] => .byte b
  | count _, [b] => .count b.toNat
  | bytes _ _, given => .bytes given
  | _, _ => .done

/-- The bytes that an answer was made of. -/
def Answer.given : Answer → List UInt8
  | byte b => [b]
  | count n => [UInt8.ofNat n]
  | bytes given => given
  | done => []

/-- The bytes that a step returned; a failed one has returned none. -/
def returned : EStateM.Result DecodeError (Marked Reader) Answer → List UInt8
  | .ok answer _ => answer.given
  | .error _ _ => []

theorem Step.given_answer {step : Step} {given : List UInt8} {context : String}
    (asks : step.request? = some (given.length, context)) : (step.answer given).given = given := by
  cases step with
  | byte label =>
    obtain ⟨b, rfl⟩ : ∃ b, given = [b] := List.length_eq_one_iff.mp (by simp_all [request?])
    rfl
  | count label =>
    obtain ⟨b, rfl⟩ : ∃ b, given = [b] := List.length_eq_one_iff.mp (by simp_all [request?])
    exact congrArg (fun b => [b]) UInt8.ofNat_toNat
  | bytes n label => rfl
  | save => cases asks
  | restore => cases asks

/-- A read takes the bytes that it asks for if there are as many, and else leaves everything as
it is. -/
theorem Step.run_read {step : Step} {n : Nat} {context : String}
    (asks : step.request? = some (n, context)) (s : Marked Reader) :
    step.run s =
      if n ≤ s.current.remaining then
        .ok (step.answer (s.current.rest.take n))
          ⟨⟨s.current.position + n, s.current.rest.drop n⟩, s.marks⟩
      else .error (.outOfBounds context n s.current.remaining) s := by
  obtain ⟨⟨position, rest⟩, marks⟩ := s
  cases step with
  | byte label =>
    obtain ⟨rfl, rfl⟩ : 1 = n ∧ label = context := by simpa [request?] using asks
    cases rest <;> rfl
  | count label =>
    obtain ⟨rfl, rfl⟩ : 1 = n ∧ label = context := by simpa [request?] using asks
    cases rest <;> rfl
  | bytes m label =>
    obtain ⟨rfl, rfl⟩ : m = n ∧ label = context := by simpa [request?] using asks
    rw [run, map_apply, Marked.lift, Cursor.reading_reader, Read.run_bytes, readBytes_run]
    by_cases enough : m ≤ Reader.remaining ⟨position, rest⟩
    · rw [if_pos enough, if_pos enough]
      rfl
    · rw [if_neg enough, if_neg enough]
      rfl
  | save => cases asks
  | restore => cases asks

/-- A step reads on and returns what it has passed, marks its place or returns to a mark. -/
theorem Step.run_cases (step : Step) (s : Marked Reader) :
    (step.request?.isSome ∧ ∃ r,
      Consumed s.current (returned (step.run s)) r ∧ stateOf (step.run s) = ⟨r, s.marks⟩) ∨
    (step = .save ∧ step.run s = .ok .done s.save) ∨
    (step = .restore ∧ step.run s = .ok .done s.restore) := by
  cases asked : step.request? with
  | none =>
    cases step with
    | save => exact .inr (.inl ⟨rfl, rfl⟩)
    | restore => exact .inr (.inr ⟨rfl, rfl⟩)
    | _ => cases asked
  | some request =>
    obtain ⟨n, context⟩ := request
    refine .inl ⟨rfl, ?_⟩
    rw [run_read asked]
    split
    · rename_i enough
      have width : (s.current.rest.take n).length = n := List.length_take_of_le enough
      rw [← width] at asked
      have given := given_answer asked
      refine ⟨_, ⟨?_, ?_⟩, rfl⟩
      · rw [returned, given]
        exact (List.take_append_drop n _).symm
      · rw [returned, given, width]
    · exact ⟨s.current, consumed_nil_iff.mpr rfl, rfl⟩

/-- What reading on keeps, every step keeps of all places that the reader can be at. -/
theorem Step.run_all {P : Reader → Prop}
    (kept : ∀ {r part r'}, P r → Consumed r part r' → P r') (step : Step) (all : s.All P) :
    (stateOf (step.run s)).All P := by
  obtain ⟨-, r, consumed, reads⟩ | ⟨-, saves⟩ | ⟨-, restores⟩ := step.run_cases s
  · rw [reads]
    exact ⟨kept all.1 consumed, all.2⟩
  · rw [saves]
    exact all.save
  · rw [restores]
    exact all.restore

/-- Until it returns to a mark, a session gives back all that it passes, in order and nothing
twice, however many reads fail on the way. -/
theorem consumed_session {steps : List Step} (onward : .restore ∉ steps) (s : Marked Reader) :
    Consumed s.current ((session Step.run steps s).flatMap returned)
      (after Step.run steps s).current := by
  induction steps generalizing s with
  | nil => exact consumed_nil_iff.mpr rfl
  | cons step steps ih =>
    obtain ⟨other, later⟩ : .restore ≠ step ∧ .restore ∉ steps := by simpa using onward
    have rest := ih later (stateOf (step.run s))
    rw [session_cons, List.flatMap_cons, after_cons]
    refine Consumed.trans ?_ rest
    obtain ⟨-, r, consumed, reads⟩ | ⟨-, saves⟩ | ⟨restoring, -⟩ := step.run_cases s
    · rw [reads]
      exact consumed
    · rw [saves]
      exact consumed_nil_iff.mpr rfl
    · exact absurd restoring.symm other

/-- Steps in which every return goes to a mark that was set among them, and none of these marks
is left. -/
inductive Balanced : List Step → Prop
  | nil : Balanced []
  | read {step : Step} {steps : List Step} (asks : step.request?.isSome) :
      Balanced steps → Balanced (step :: steps)
  | returning {inner later : List Step} :
      Balanced inner → Balanced later → Balanced (.save :: inner ++ .restore :: later)

variable {between later history : List Step}

theorem Balanced.append (first : Balanced between) (second : Balanced later) :
    Balanced (between ++ later) := by
  induction first with
  | nil => exact second
  | read asks balanced ih => exact .read asks ih
  | returning inner later inner_ih later_ih =>
    rw [List.append_assoc, List.cons_append]
    exact .returning inner later_ih

/-- A return to the mark that was set before balanced steps leaves nothing of them. -/
theorem after_returning (kept : ∀ s : Marked Reader, (after Step.run between s).marks = s.marks)
    (s : Marked Reader) : after Step.run (.save :: between ++ [.restore]) s = s := by
  have saved : stateOf (Step.run .save s) = s.save := rfl
  have marks : (after Step.run between s.save).marks = s.current :: s.marks := kept s.save
  rw [List.cons_append, after_cons, saved, after_append, after_cons, after_nil]
  exact Marked.restore_of_marks marks

theorem Balanced.marks_eq (balanced : Balanced between) (s : Marked Reader) :
    (after Step.run between s).marks = s.marks := by
  induction balanced generalizing s with
  | nil => rfl
  | @read step steps asks balanced ih =>
    rw [after_cons, ih]
    obtain ⟨-, r, -, reads⟩ | ⟨rfl, -⟩ | ⟨rfl, -⟩ := step.run_cases s
    · rw [reads]
    · cases asks
    · cases asks
  | @returning inner later _ _ inner_ih later_ih =>
    have returns := after_returning inner_ih s
    rw [List.append_cons, after_append, returns, later_ih]

/-- Behind every mark there is the step that set it, and the steps since are balanced. -/
theorem exists_save_of_marks {mark : Reader} {marks : List Reader}
    (set : (after Step.run history ⟨start, []⟩).marks = mark :: marks) :
    ∃ before between, history = before ++ .save :: between ∧ Balanced between ∧
      after Step.run before ⟨start, []⟩ = ⟨mark, marks⟩ := by
  induction len : history.length using Nat.strongRecOn generalizing history mark marks with
  | ind n ih =>
    obtain rfl | ⟨earlier, step, rfl⟩ := history.eq_nil_or_concat
    · cases set
    · rw [List.concat_eq_append] at len set ⊢
      rw [List.length_append, List.length_singleton] at len
      rw [after_append, after_cons, after_nil] at set
      obtain ⟨asks, r, -, reads⟩ | ⟨rfl, saves⟩ | ⟨rfl, restores⟩ :=
        step.run_cases (after Step.run earlier ⟨start, []⟩)
      · rw [reads] at set
        obtain ⟨before, between, rfl, balanced, there⟩ := ih _ (by omega) set rfl
        have longer := balanced.append (.read asks .nil)
        exact ⟨before, between ++ [step], List.append_assoc _ _ _, longer, there⟩
      · rw [saves] at set
        exact ⟨earlier, [], rfl, .nil, Marked.eq_of_marks_save set⟩
      · -- The mark lies under the one that was returned to, so it was set before that one was.
        rw [restores, stateOf, Marked.marks_restore] at set
        obtain ⟨top, under⟩ : ∃ top,
            (after Step.run earlier ⟨start, []⟩).marks = top :: mark :: marks := by
          cases marked : (after Step.run earlier ⟨start, []⟩).marks with
          | nil => simp [marked] at set
          | cons top rest => exact ⟨top, by simpa [marked] using set⟩
        obtain ⟨middle, inner, rfl, closed, there⟩ := ih _ (by omega) under rfl
        have still : (after Step.run middle ⟨start, []⟩).marks = mark :: marks := by rw [there]
        rw [List.length_append] at len
        obtain ⟨before, outer, rfl, balanced, reached⟩ := ih _ (by omega) still rfl
        have longer := balanced.append (.returning closed .nil)
        exact ⟨before, _, by simp, longer, reached⟩

/-- On machine words a session comes out as it does without an index, so it never goes astray. -/
theorem session_place {data : Slice} (steps : List IndexedReader.Step) {s : Marked Reader}
    (placed : s.All (Placed data.bytes)) :
    session IndexedReader.Step.run steps (s.map data.place) =
      (session Step.run (steps.map (·.plain)) s).map (unstrayed (Marked.map data.place)) := by
  induction steps generalizing s with
  | nil => rfl
  | cons step steps ih =>
    have later := ih (step.plain.run_all (fun there consumed => consumed.placed there) placed)
    rw [session_cons, step.run_place placed, stateOf_unstrayed, later, List.map_cons,
      session_cons, List.map_cons]

/-- Wherever a reader was started and whatever was asked of it, it stands between there and the end.
A read succeeds exactly when as many bytes are left as it asks for, however many these are, and
returns the next ones; else it says how many there are and has done nothing. So until a return to
a mark the bytes that were returned are those passed over; and the return to a mark undoes all
since the step that set it. With indices counted in machine words it all comes out the same, and no
index beyond the end is ever computed. -/
theorem reads_accounted {offset : Nat} (located : at? data offset = .ok start)
    (history : List Step) :
    let s := after Step.run history ⟨start, []⟩
    let position := s.current.position
    (offset ≤ position ∧ position ≤ data.length ∧ s.current.rest = data.drop position ∧
      s.current.remaining = data.length - position) ∧
    (∀ (step : Step) (n : Nat) (context : String), step.request? = some (n, context) →
      step.run s =
        if n ≤ s.current.remaining then
          .ok (step.answer ((data.drop position).take n))
            ⟨⟨position + n, data.drop (position + n)⟩, s.marks⟩
        else .error (.outOfBounds context n (data.length - position)) s) ∧
    (∀ steps, .restore ∉ steps →
      let stop := (after Step.run steps s).current.position
      position ≤ stop ∧
        (session Step.run steps s).flatMap returned = (data.take stop).drop position) ∧
    (∀ between later, Balanced between →
      session Step.run later (after Step.run (.save :: between ++ [.restore]) s) =
        session Step.run later s) ∧
    (∀ mark marks, s.marks = mark :: marks →
      ∃ before between, history = before ++ .save :: between ∧ Balanced between ∧
        ∀ later, session Step.run later (stateOf (Step.run .restore s)) =
          session Step.run later (after Step.run before ⟨start, []⟩)) ∧
    ∀ (slice : Slice) (steps : List IndexedReader.Step), slice.bytes = data →
      session IndexedReader.Step.run steps ⟨⟨slice, UInt64.ofNat offset⟩, []⟩ =
        (session Step.run (steps.map (·.plain)) ⟨start, []⟩).map
          (unstrayed (Marked.map slice.place)) := by
  intro s position
  -- All places lie behind the start, the marks included.
  have begins : Marked.All (fun r => ∃ part, Consumed start part r) ⟨start, []⟩ :=
    .start ⟨[], consumed_nil_iff.mpr rfl⟩
  have onward : s.All fun r => ∃ part, Consumed start part r := by
    refine after_invariant (fun step s all => step.run_all ?_ all) history begins
    intro r part r' read consumed
    obtain ⟨before, read⟩ := read
    exact ⟨before ++ part, read.trans consumed⟩
  obtain ⟨part, consumed⟩ := onward.1
  obtain ⟨passed, within, rest⟩ := consumed.within located
  have placed : s.current.Placed data := consumed.placed (placed_of_at? located)
  refine ⟨⟨passed, within, rest, placed.remaining_eq⟩, ?_, ?_, ?_, ?_, ?_⟩
  · intro step n context asks
    rw [step.run_read asks, rest, List.drop_drop, placed.remaining_eq]
  · intro steps forward
    have read := consumed_session forward s
    refine ⟨?_, (read.before placed).symm⟩
    rw [read.position]
    exact Nat.le_add_right _ _
  · intro between later balanced
    rw [after_returning balanced.marks_eq]
  · intro mark marks set
    obtain ⟨before, between, split, balanced, there⟩ := exists_save_of_marks set
    refine ⟨before, between, split, balanced, fun later => ?_⟩
    have returns : stateOf (Step.run .restore s) = ⟨mark, marks⟩ := Marked.restore_of_marks set
    rw [returns, there]
  · rintro slice steps rfl
    obtain ⟨-, rfl⟩ := at?_eq_ok_iff.mp located
    exact session_place steps (.start (placed_of_at? located))

/-- Requests as large as a word can hold, a read that is undone, and one that is too long between two
that are not. -/
theorem reads_accounted_sample :
    let data : Slice := ⟨[7, 2, 9, 8], by decide⟩
    let history : List Step := [.bytes 18446744073709551615 "all", .save, .byte "first"]
    let s := after Step.run history ⟨⟨1, [2, 9, 8]⟩, []⟩
    at? data.bytes 1 = .ok ⟨1, [2, 9, 8]⟩ ∧
    Step.run (.bytes 18446744073709551615 "all") s =
      .error (.outOfBounds "all" 18446744073709551615 2) s ∧
    (session Step.run [.byte "second", .bytes 2 "more", .byte "third"] s).flatMap returned =
      [9, 8] ∧
    session Step.run [.count "next"] (after Step.run [.save, .byte "second", .restore] s) =
      session Step.run [.count "next"] s ∧
    (∃ before between, history = before ++ .save :: between ∧
      session Step.run [.count "next"] (stateOf (Step.run .restore s)) =
        session Step.run [.count "next"] (after Step.run before ⟨⟨1, [2, 9, 8]⟩, []⟩)) ∧
    session IndexedReader.Step.run [.bytes 18446744073709551615 "all", .array 2 "two"]
        ⟨⟨data, 1⟩, []⟩ =
      [.error (.failed (.outOfBounds "all" 18446744073709551615 3)) ⟨⟨data, 1⟩, []⟩,
        .ok (.bytes [2, 9]) ⟨⟨data, 3⟩, []⟩] := by
  intro data history s
  have located : at? data.bytes 1 = .ok ⟨1, [2, 9, 8]⟩ := rfl
  obtain ⟨-, reads, passes, undoes, returns, indexed⟩ := reads_accounted located history
  have refused := reads (.bytes 18446744073709551615 "all") _ _ rfl
  have passed := passes [.byte "second", .bytes 2 "more", .byte "third"] (by simp)
  have undone := undoes [.byte "second"] [.count "next"] (.read rfl .nil)
  obtain ⟨before, between, split, -, returned⟩ := returns ⟨1, [2, 9, 8]⟩ [] rfl
  have words := indexed data [.bytes 18446744073709551615 "all", .array 2 "two"] rfl
  exact ⟨located, refused.trans rfl, passed.2.trans rfl, undone,
    ⟨before, between, split, returned _⟩, words.trans rfl⟩

end Reader

end FlatCodec
