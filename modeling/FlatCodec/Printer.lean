import FlatCodec.Sink
import FlatCodec.Value.View

namespace FlatCodec

namespace Item

mutual

/-- Prints an item by its category; the first write that does not fit ends the printing. -/
def print : Item → Sink → Option Sink
  | number k bits, sink => sink.writeToken (.word (k.text bits))
  | bool b, sink => sink.writeToken (.word (if b then "1" else "0"))
  | text s, sink => sink.writeToken (.word s)
  | sequence elements, sink => do
    let sink ← sink.writeToken .openSequence
    let sink ← printAll elements sink
    sink.writeToken .closeSequence
  | union d payload, sink => do
    let sink ← sink.writeToken (.tag d)
    print payload sink
  | composite fields, sink => do
    let sink ← sink.writeToken .openComposite
    let sink ← printAll fields sink
    sink.writeToken .closeComposite

def printAll : List Item → Sink → Option Sink
  | [], sink => some sink
  | i :: is, sink => do
    let sink ← print i sink
    printAll is sink

end

open Sink

/-- Tokens as they are written, each with the space behind it. -/
def spaced (ts : List Token) : List String := ts.map fun t => t.text ++ " "

theorem writeToken_eq_writeAll (t : Token) (sink : Sink) :
    sink.writeToken t = sink.writeAll (spaced [t]) :=
  (writeToken_run t sink).trans (writeAll_singleton _ sink).symm

theorem printAll_of_each {items : List Item}
    (each : ∀ i ∈ items, ∀ sink, i.print sink = sink.writeAll (spaced i.tokens)) (sink : Sink) :
    printAll items sink = sink.writeAll (spaced (tokensAll items)) := by
  induction items generalizing sink with
  | nil => rfl
  | cons i is ih =>
    obtain ⟨here, later⟩ := List.forall_mem_cons.mp each
    rw [tokensAll, spaced, List.map_append, writeAll_append, printAll, here]
    exact congrArg ((sink.writeAll (spaced i.tokens)).bind ·) (funext (ih later))

/-- Brackets are printed around what lies between them. -/
theorem printAll_bracketed {items : List Item}
    (inside : ∀ sink, printAll items sink = sink.writeAll (spaced (tokensAll items)))
    (opening closing : Token) (sink : Sink) :
    (do
      let sink ← sink.writeToken opening
      let sink ← printAll items sink
      sink.writeToken closing) =
      sink.writeAll (spaced (opening :: tokensAll items ++ [closing])) := by
  rw [writeToken_run, spaced, List.cons_append, List.map_cons, List.map_append, writeAll_cons]
  simp only [inside, writeToken_eq_writeAll closing, writeAll_append]
  rfl

/-- Printing is writing the tokens in turn: none is passed over and none comes before its
time. -/
theorem print_eq_writeAll (i : Item) (sink : Sink) :
    i.print sink = sink.writeAll (spaced i.tokens) := by
  induction i generalizing sink with
  | number k bits => exact writeToken_eq_writeAll _ sink
  | bool b => exact writeToken_eq_writeAll _ sink
  | text s => exact writeToken_eq_writeAll _ sink
  | sequence elements each =>
    rw [print, tokens, printAll_bracketed (printAll_of_each each)]
  | union d payload inside =>
    rw [print, tokens, spaced, List.map_cons, writeAll_cons, writeToken_run]
    exact congrArg ((sink.write ((Token.tag d).text ++ " ")).bind ·) (funext inside)
  | composite fields each =>
    rw [print, tokens, printAll_bracketed (printAll_of_each each)]

/-- The many writes of printing come out as one write of the trace. -/
theorem print_run (i : Item) (sink : Sink) : i.print sink = sink.write i.trace := by
  rw [print_eq_writeAll]
  exact writeAll_of_join rfl i.trace_ne_empty sink

end Item

def Data.trace {C : Catalogue} {t : Ty C.Name} (v : Value C t) : String := v.view.trace

/-- The trace is what printing leaves in an empty sink that nothing bounds. -/
theorem Data.trace_eq_print {C : Catalogue} {t : Ty C.Name} (v : Value C t) :
    v.view.print ⟨"", none⟩ = some ⟨v.trace, none⟩ := by
  have unbounded : (⟨"", none⟩ : Sink).Fits v.trace := fun limit bounded => nomatch bounded
  have whole : (⟨"", none⟩ : Sink).append v.trace = ⟨v.trace, none⟩ :=
    congrArg (Sink.mk · none) String.empty_append
  have printed : v.view.print ⟨"", none⟩ = (⟨"", none⟩ : Sink).write v.trace := v.view.print_run _
  rw [printed, Sink.write_run, if_pos unbounded, whole]

namespace Printer

inductive Step (C : Catalogue) where
  | print {t : Ty C.Name} (v : Value C t)
  | field {t : Ty C.Name} (v : Value C t)
  /-- Prints a value, then takes the sink back and writes a bar to it. -/
  | printAndClose {t : Ty C.Name} (v : Value C t)

def Step.run {C : Catalogue} : Step C → Sink → Option Sink
  | print v, sink => v.view.print sink
  | field v, sink => v.view.print sink
  | printAndClose v, sink => do
    let sink ← v.view.print sink
    sink.write "|"

/-- The sink after each step. The first failure ends the session, and what it left in the
sink is not told. -/
def run {C : Catalogue} : List (Step C) → Sink → List (Option Sink)
  | [], _ => []
  | step :: steps, sink =>
    match step.run sink with
    | some sink' => some sink' :: run steps sink'
    | none => [none]

end Printer

end FlatCodec
