import FlatCodec.Item.Token
import FlatCodec.Proofs.PlainDecimal

namespace FlatCodec

/-- Texts without a space are told apart by the space behind each, whatever follows. -/
theorem eq_of_append_space {a b x y : List Char} (unbroken : ' ' ∉ a) (unbroken' : ' ' ∉ b)
    (same : a ++ ' ' :: x = b ++ ' ' :: y) : a = b ∧ x = y := by
  induction a generalizing b with
  | nil =>
    cases b with
    | nil => exact ⟨rfl, (List.cons.inj same).2⟩
    | cons c b =>
      have space : ' ' = c := (List.cons.inj same).1
      exact absurd (space ▸ List.mem_cons_self) unbroken'
  | cons c a ih =>
    cases b with
    | nil =>
      have space : c = ' ' := (List.cons.inj same).1
      exact absurd (space ▸ List.mem_cons_self) unbroken
    | cons d b =>
      obtain ⟨rfl, rest⟩ := List.cons.inj same
      have within := ih (fun found => unbroken (List.mem_cons_of_mem _ found))
        (fun found => unbroken' (List.mem_cons_of_mem _ found)) rest
      exact ⟨congrArg (List.cons c) within.1, within.2⟩

namespace Token

/-- If the token is a word, then one that spells an integer. -/
def Legible : Token → Prop
  | word s => ∃ z, Decimal.Spells s z
  | _ => True

/-- The character that a token which is no word begins with. -/
def mark? : Token → Option Char
  | word _ => none
  | tag _ => some '#'
  | openSequence => some '['
  | closeSequence => some ']'
  | openComposite => some '\x7b'
  | closeComposite => some '\x7d'

variable {t t' : Token}

theorem tag_text (d : Nat) : (tag d).text.toList = '#' :: Nat.toDigits 10 d := by
  rw [text, String.toList_append, Nat.toString_eq_repr, Nat.toList_repr]
  rfl

/-- The mark of a token shows in its text, since no integer begins with one. -/
theorem Legible.mark?_eq (legible : t.Legible) :
    t.mark? = t.text.toList.head?.filter fun c => c ≠ '-' && !c.isDigit := by
  cases t with
  | word s =>
    obtain ⟨z, spelled⟩ := legible
    obtain ⟨c, cs, front⟩ := List.exists_cons_of_ne_nil spelled.ne_empty
    have first : c ∈ s.toList := front ▸ List.mem_cons_self
    rw [text, front]
    rcases spelled.each first with rfl | digit
    · rfl
    · simp [mark?, Option.filter, digit]
  | tag d =>
    rw [tag_text]
    rfl
  | _ => rfl

/-- A legible token is told by its text. -/
theorem Legible.text_inj (legible : t.Legible) (legible' : t'.Legible) (same : t.text = t'.text) :
    t = t' := by
  have marks : t.mark? = t'.mark? := by
    rw [legible.mark?_eq, legible'.mark?_eq, same]
  cases t with
  | word s =>
    cases t' with
    | word s' => exact congrArg word same
    | _ => cases marks
  | tag d =>
    cases t' with
    | tag d' =>
      have digits : '#' :: Nat.toDigits 10 d = '#' :: Nat.toDigits 10 d' := by
        rw [← tag_text, ← tag_text, same]
      have value := congrArg (Nat.ofDigitChars 10 · 0) (List.cons.inj digits).2
      simp only [Nat.ofDigitChars_ten_toDigits] at value
      exact congrArg tag value
    | _ => simp [mark?] at marks
  | _ => cases t' <;> first | rfl | simp [mark?] at marks

theorem Legible.unbroken (legible : t.Legible) : ' ' ∉ t.text.toList := by
  intro found
  cases t with
  | word s =>
    obtain ⟨z, spelled⟩ := legible
    rcases spelled.each found with minus | digit
    · cases minus
    · cases digit
  | tag d =>
    rw [tag_text] at found
    rcases List.mem_cons.mp found with mark | digit
    · cases mark
    · have digit := Nat.isDigit_of_mem_toDigits (by decide) (by decide) digit
      cases digit
  | _ => simp [text] at found

/-- The characters that tokens are printed as. -/
def spelled (ts : List Token) : List Char := ts.flatMap fun t => t.text.toList ++ [' ']

@[simp] theorem spelled_nil : spelled [] = [] := rfl

@[simp] theorem spelled_cons (t : Token) (ts : List Token) :
    spelled (t :: ts) = t.text.toList ++ ' ' :: spelled ts := by
  simp [spelled]

@[simp] theorem spelled_append (ts ts' : List Token) :
    spelled (ts ++ ts') = spelled ts ++ spelled ts' :=
  List.flatMap_append

variable {ts ts' : List Token} {x y : List Char}

theorem spelled_cancel (same : spelled (t :: ts) ++ x = spelled (t :: ts') ++ y) :
    spelled ts ++ x = spelled ts' ++ y := by
  simpa using same

/-- What is printed of two rows of tokens is printed of the first, and the second follows. -/
theorem spelled_fields {us us' : List Token}
    (same : spelled (ts ++ us) ++ x = spelled (ts' ++ us') ++ y) :
    spelled ts ++ (spelled us ++ x) = spelled ts' ++ (spelled us' ++ y) := by
  simpa using same

theorem spelled_elements {us us' : List Token}
    (same : spelled (ts ++ us ++ [t]) ++ x = spelled (ts' ++ us' ++ [t]) ++ y) :
    spelled ts ++ (spelled (us ++ [t]) ++ x) = spelled ts' ++ (spelled (us' ++ [t]) ++ y) := by
  rw [List.append_assoc, List.append_assoc] at same
  exact spelled_fields same

/-- The first token is told, whatever is printed behind it. -/
theorem eq_of_spelled_append (legible : t.Legible) (legible' : t'.Legible)
    (same : spelled (t :: ts) ++ x = spelled (t' :: ts') ++ y) :
    t = t' ∧ spelled ts ++ x = spelled ts' ++ y := by
  rw [spelled_cons, spelled_cons, List.append_assoc, List.append_assoc] at same
  obtain ⟨text, rest⟩ := eq_of_append_space legible.unbroken legible'.unbroken same
  exact ⟨legible.text_inj legible' (String.toList_inj.mp text), rest⟩

theorem eq_of_spelled_tag {d d' : Nat}
    (same : spelled (.tag d :: ts) ++ x = spelled (.tag d' :: ts') ++ y) :
    d = d' ∧ spelled ts ++ x = spelled ts' ++ y := by
  have legible (d : Nat) : (Token.tag d).Legible := trivial
  obtain ⟨token, rest⟩ := eq_of_spelled_append (legible d) (legible d') same
  exact ⟨Token.tag.inj token, rest⟩

end Token

theorem Item.trace_toList (i : Item) : i.trace.toList = Token.spelled i.tokens := by
  rw [trace, String.toList_join, List.flatMap_map, Token.spelled]
  simp only [String.toList_append]
  rfl

end FlatCodec
