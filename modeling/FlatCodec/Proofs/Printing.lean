import FlatCodec.Printer
import FlatCodec.Sample

namespace FlatCodec

namespace Printer

variable {C : Catalogue} {step : Step C} {steps : List (Step C)} {initial sink : Sink} {n : Nat}

/-- What a step adds to the sink. -/
def Step.written : Step C → String
  | print v => v.trace
  | field v => v.trace
  | printAndClose v => v.trace ++ "|"

theorem Step.written_ne_empty (step : Step C) : step.written ≠ "" := by
  cases step with
  | print v => exact v.view.trace_ne_empty
  | field v => exact v.view.trace_ne_empty
  | printAndClose v =>
    intro nothing
    exact v.view.trace_ne_empty (String.append_eq_empty_iff.mp nothing).1

theorem Step.run_eq_write (step : Step C) (sink : Sink) :
    step.run sink = sink.write step.written := by
  cases step with
  | print v => exact v.view.print_run sink
  | field v => exact v.view.print_run sink
  | printAndClose v =>
    rw [run, Item.print_run]
    exact Sink.write_bind_write v.trace "|" sink

/-- The sink before the first step and after each one, as long as none has failed. -/
def sinks (steps : List (Step C)) (initial : Sink) : List (Option Sink) :=
  some initial :: run steps initial

theorem sinks_cons_of_some (ran : step.run initial = some sink) :
    sinks (step :: steps) initial = some initial :: sinks steps sink := by
  rw [sinks, run, ran]
  rfl

theorem sinks_cons_of_none (failed : step.run initial = none) :
    sinks (step :: steps) initial = [some initial, none] := by
  rw [sinks, run, failed]

/-- The next step starts from the sink that was reached, and after a failure there is none. -/
theorem sinks_succ (steps : List (Step C)) (initial : Sink) (n : Nat) :
    (sinks steps initial)[n + 1]? =
      match (sinks steps initial)[n]?, steps[n]? with
      | some (some sink), some step => some (step.run sink)
      | _, _ => none := by
  induction steps generalizing initial n with
  | nil => cases n <;> rfl
  | cons first steps ih =>
    cases ran : first.run initial with
    | none =>
      rw [sinks_cons_of_none ran]
      rcases n with _ | _ | n
      · exact congrArg some ran.symm
      · rfl
      · rfl
    | some next =>
      rw [sinks_cons_of_some ran]
      cases n with
      | zero => exact congrArg some ran.symm
      | succ n => exact ih next n

/-- Where a session has got to, everything written so far has been appended. -/
theorem eq_append_of_sinks (reached : (sinks steps initial)[n]? = some (some sink)) :
    sink = initial.append (String.join ((steps.take n).map Step.written)) := by
  induction n generalizing sink with
  | zero =>
    obtain rfl : initial = sink := Option.some.inj (Option.some.inj reached)
    exact initial.append_empty.symm
  | succ n ih =>
    rw [sinks_succ] at reached
    split at reached
    · rename_i before step there next
      rw [Option.some.injEq, Step.run_eq_write, Sink.write_run, Option.ite_none_right_eq_some,
        Option.some.injEq] at reached
      obtain ⟨-, rfl⟩ := reached
      rw [ih there, List.take_add_one, next, Sink.append_append]
      simp
    · cases reached

/-- A step of a session succeeds exactly when the sink has room for what it writes, and then has
appended that and nothing else to the sink as the steps before have left it; how the text is cut
into writes makes no difference. The first step that does not fit ends the session, which is at
once where the sink is beyond its limit from the start. Where nothing bounds it, printing gives
the trace itself. -/
theorem steps_append_where_they_fit (steps : List (Step C)) (initial : Sink) :
    (∀ n step sink, steps[n]? = some step → (sinks steps initial)[n]? = some (some sink) →
      sink = initial.append (String.join ((steps.take n).map Step.written)) ∧
      (sinks steps initial)[n + 1]? =
        some (if sink.Fits step.written then some (sink.append step.written) else none) ∧
      ∀ pieces, String.join pieces = step.written → sink.writeAll pieces = step.run sink) ∧
    (∀ n, (sinks steps initial)[n]? = some none → (sinks steps initial)[n + 1]? = none) ∧
    (∀ limit ∈ initial.limit, limit < initial.text.utf8ByteSize →
      ∀ step ∈ steps.head?, run steps initial = [none]) ∧
    ∀ {t : Ty C.Name} (v : Value C t), v.view.print ⟨"", none⟩ = some ⟨v.trace, none⟩ := by
  refine ⟨?_, ?_, ?_, ?_⟩
  · intro n step sink there reached
    refine ⟨eq_append_of_sinks reached, ?_, ?_⟩
    · simp only [sinks_succ, reached, there, Step.run_eq_write, Sink.write_run]
    · intro pieces cut
      rw [Sink.writeAll_of_join cut step.written_ne_empty, Step.run_eq_write]
  · intro n failed
    rw [sinks_succ, failed]
  · intro limit bounded beyond step first
    have full : ¬ initial.Fits step.written := by
      intro fits
      have room := fits limit bounded
      omega
    obtain ⟨later, rfl⟩ : ∃ later, steps = step :: later := by
      simpa [List.head?_eq_some_iff] using first
    rw [run, Step.run_eq_write, Sink.write_run, if_neg full]
  · intro t v
    exact v.trace_eq_print

/-- The bar of the second step takes the last byte, so there is no room for the third step; and a
sink that holds four bytes is beyond a limit of three before anything is printed. -/
theorem steps_append_where_they_fit_sample :
    let steps : List (Step sample) := [.print (t := .text) (.text "a"),
      .printAndClose (t := .option .bool) (.present (.bool true)), .field (t := .bool) (.bool false)]
    (sinks steps ⟨"é", some 10⟩)[1]? = some (some ⟨"éa ", some 10⟩) ∧
    (sinks steps ⟨"é", some 10⟩)[2]? = some (some ⟨"éa #1 1 |", some 10⟩) ∧
    Sink.writeAll ["#", "1", " 1 ", "|"] ⟨"éa ", some 10⟩ = some ⟨"éa #1 1 |", some 10⟩ ∧
    (sinks steps ⟨"é", some 10⟩)[3]? = some none ∧
    (sinks steps ⟨"é", some 10⟩)[4]? = none ∧
    run steps ⟨"éé", some 3⟩ = [none] := by
  intro steps
  obtain ⟨appends, ends, -, -⟩ := steps_append_where_they_fit steps ⟨"é", some 10⟩
  obtain ⟨-, -, beyond, -⟩ := steps_append_where_they_fit steps ⟨"éé", some 3⟩
  have first : (sinks steps ⟨"é", some 10⟩)[1]? = some (some ⟨"éa ", some 10⟩) := rfl
  have second : (sinks steps ⟨"é", some 10⟩)[2]? = some (some ⟨"éa #1 1 |", some 10⟩) := rfl
  obtain ⟨-, fits, cut⟩ := appends 1 _ _ rfl first
  obtain ⟨-, full, -⟩ := appends 2 _ _ rfl second
  have pieces := cut ["#", "1", " 1 ", "|"] (by decide)
  exact ⟨first, fits.trans rfl, pieces.trans rfl, full.trans rfl, ends 3 rfl,
    beyond 3 rfl (by decide) _ rfl⟩

end Printer

end FlatCodec
