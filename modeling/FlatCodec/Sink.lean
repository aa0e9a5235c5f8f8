import FlatCodec.Item.Token

namespace FlatCodec

/-- A place for text that may be bounded; `limit` counts bytes of UTF-8. -/
structure Sink where
  text : String
  limit : Option Nat

namespace Sink

/-- Appends text if the sink then holds no more than its limit. -/
def write (s : String) (sink : Sink) : Option Sink :=
  let text := sink.text ++ s
  match sink.limit with
  | none => some ⟨text, none⟩
  | some limit => if text.utf8ByteSize ≤ limit then some ⟨text, some limit⟩ else none

def writeToken (t : Token) (sink : Sink) : Option Sink := do
  let sink ← sink.write t.text
  sink.write " "

variable {s s' : String} {sink : Sink} {pieces : List String}

/-- The limit leaves room for the text behind what the sink holds. -/
def Fits (s : String) (sink : Sink) : Prop :=
  ∀ limit ∈ sink.limit, sink.text.utf8ByteSize + s.utf8ByteSize ≤ limit

instance (s : String) (sink : Sink) : Decidable (sink.Fits s) :=
  inferInstanceAs (Decidable (∀ limit ∈ sink.limit, _))

def append (s : String) (sink : Sink) : Sink := ⟨sink.text ++ s, sink.limit⟩

theorem append_append (sink : Sink) (s s' : String) :
    (sink.append s).append s' = sink.append (s ++ s') := by
  simp only [append, String.append_assoc]

theorem append_empty (sink : Sink) : sink.append "" = sink := by
  simp only [append, String.append_empty]

theorem fits_append_iff : (sink.append s).Fits s' ↔ sink.Fits (s ++ s') := by
  simp only [Fits, append, String.utf8ByteSize_append, Nat.add_assoc]

/-- A text fits only where everything in front of its end does. -/
theorem Fits.front (whole : sink.Fits (s ++ s')) : sink.Fits s := by
  intro limit bounded
  have all := whole limit bounded
  rw [String.utf8ByteSize_append] at all
  omega

theorem write_run (s : String) (sink : Sink) :
    sink.write s = if sink.Fits s then some (sink.append s) else none := by
  obtain ⟨text, limit⟩ := sink
  cases limit <;> simp [write, Fits, append]

/-- Two texts written in turn are written as one, and where one of the writes fails, so does
that of the whole. -/
theorem write_bind_write (s s' : String) (sink : Sink) :
    (sink.write s).bind (·.write s') = sink.write (s ++ s') := by
  rw [write_run, write_run]
  by_cases front : sink.Fits s
  · rw [if_pos front, Option.bind_some, write_run]
    simp only [fits_append_iff, append_append]
  · have whole : ¬ sink.Fits (s ++ s') := fun whole => front whole.front
    rw [if_neg front, if_neg whole, Option.bind_none]

/-- Writes texts in turn; the first that does not fit ends the writing. -/
def writeAll (pieces : List String) (sink : Sink) : Option Sink :=
  pieces.foldlM (fun sink piece => sink.write piece) sink

theorem writeAll_cons (piece : String) (pieces : List String) (sink : Sink) :
    sink.writeAll (piece :: pieces) = (sink.write piece).bind fun sink => sink.writeAll pieces :=
  rfl

theorem writeAll_singleton (piece : String) (sink : Sink) :
    sink.writeAll [piece] = sink.write piece :=
  Option.bind_fun_some _

theorem writeAll_append (pieces later : List String) (sink : Sink) :
    sink.writeAll (pieces ++ later) =
      (sink.writeAll pieces).bind fun sink => sink.writeAll later :=
  List.foldlM_append

/-- Behind one write, what follows makes no difference by how it is cut. -/
theorem write_bind_writeAll (s : String) (pieces : List String) (sink : Sink) :
    ((sink.write s).bind fun sink => sink.writeAll pieces) =
      sink.write (s ++ String.join pieces) := by
  induction pieces generalizing s with
  | nil =>
    rw [String.join_nil, String.append_empty]
    exact Option.bind_fun_some _
  | cons piece pieces ih =>
    have cut := ih (s ++ piece)
    rw [← write_bind_write, Option.bind_assoc, String.append_assoc, ← String.join_cons] at cut
    exact cut

/-- However a text is cut, writing the pieces in turn comes out as writing it whole. The empty
text is left out: no writes at all succeed in a sink that is beyond its limit, and the write of
an empty text does not. -/
theorem writeAll_of_join (cut : String.join pieces = s) (some_text : s ≠ "") (sink : Sink) :
    sink.writeAll pieces = sink.write s := by
  cases pieces with
  | nil => exact absurd cut.symm some_text
  | cons piece pieces => rw [writeAll_cons, write_bind_writeAll, ← String.join_cons, cut]

theorem writeToken_run (t : Token) (sink : Sink) :
    sink.writeToken t = sink.write (t.text ++ " ") :=
  write_bind_write t.text " " sink

end Sink

end FlatCodec
