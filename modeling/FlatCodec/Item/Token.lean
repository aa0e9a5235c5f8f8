import FlatCodec.Item
import FlatCodec.Number.Text

namespace FlatCodec

inductive Token where
  | word (s : String)
  | tag (discriminant : Nat)
  | openSequence
  | closeSequence
  | openComposite
  | closeComposite
  deriving DecidableEq, Repr

def Token.text : Token → String
  | word s => s
  | tag d => "#" ++ toString d
  | openSequence => "["
  | closeSequence => "]"
  | openComposite => "\x7b"
  | closeComposite => "\x7d"

namespace Item

mutual

/-- The tokens of an item. Truth values print as numbers and texts as they are, so only where
no text is involved do the tokens tell the items apart. -/
def tokens : Item → List Token
  | number k bits => [.word (k.text bits)]
  | bool b => [.word (if b then "1" else "0")]
  | text s => [.word s]
  | sequence elements => .openSequence :: tokensAll elements ++ [.closeSequence]
  | union d payload => .tag d :: tokens payload
  | composite fields => .openComposite :: tokensAll fields ++ [.closeComposite]

def tokensAll : List Item → List Token
  | [] => []
  | i :: is => tokens i ++ tokensAll is

end

/-- No value is printed as the bracket that ends a sequence, nor begins with it. -/
theorem tokens_head (i : Item) : ∃ t ts, i.tokens = t :: ts ∧ t ≠ .closeSequence := by
  cases i with
  | _ => exact ⟨_, _, rfl, by simp⟩

/-- The printed text: every token is followed by one space. -/
def trace (i : Item) : String := String.join (i.tokens.map fun t => t.text ++ " ")

theorem trace_ne_empty (i : Item) : i.trace ≠ "" := by
  obtain ⟨t, ts, first, -⟩ := i.tokens_head
  intro nothing
  rw [trace, first, List.map_cons, String.join_cons] at nothing
  have word : t.text ++ " " = "" := (String.append_eq_empty_iff.mp nothing).1
  have space : " " = "" := (String.append_eq_empty_iff.mp word).2
  exact absurd space (by decide)

theorem join_tokensAll (items : List Item) :
    String.join ((tokensAll items).map fun t => t.text ++ " ") = String.join (items.map trace) := by
  induction items with
  | nil => rfl
  | cons i is ih =>
    rw [tokensAll, List.map_append, String.join_append, ih, List.map_cons, String.join_cons]
    rfl

/-- The payload is printed as it is by itself, behind the tag. -/
theorem trace_union (d : Nat) (payload : Item) :
    (union d payload).trace = "#" ++ toString d ++ " " ++ payload.trace := by
  rw [trace, tokens, List.map_cons, String.join_cons]
  rfl

/-- The fields are printed as they are by themselves, between braces. -/
theorem trace_composite (fields : List Item) :
    (composite fields).trace = "\x7b " ++ String.join (fields.map trace) ++ "\x7d " := by
  rw [trace, tokens, List.cons_append, List.map_cons, String.join_cons, List.map_append,
    String.join_append, join_tokensAll, ← String.append_assoc]
  rfl

end Item

end FlatCodec
