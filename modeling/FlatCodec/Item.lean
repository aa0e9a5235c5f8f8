import FlatCodec.Ty

namespace FlatCodec

/-- What a visitor is shown of a value: its structure by category, with the unvisited fields
left out and without the types. Writing and printing depend on nothing else. -/
inductive Item where
  | number (k : Number) (bits : k.Bits)
  | bool (b : Bool)
  | text (s : String)
  | sequence (elements : List Item)
  | union (discriminant : Nat) (payload : Item)
  | composite (fields : List Item)

namespace Item

def category : Item → Category
  | number .. => .scalar
  | bool _ => .scalar
  | text _ => .text
  | sequence _ => .sequence
  | union .. => .taggedUnion
  | composite _ => .composite

def discriminant? : Item → Option Nat
  | union d _ => some d
  | _ => none

/-- What a value hands to a visitor: the fields of a composite in order, the payload of a
union, the elements of a sequence. -/
def children : Item → List Item
  | sequence elements => elements
  | union _ payload => [payload]
  | composite fields => fields
  | _ => []

/-- Shows items to a visitor in order until it fails, and keeps what it answered before that. -/
def visitAll {ε α : Type} (visitor : Item → Except ε α) : List Item → List α × Option ε
  | [] => ([], none)
  | i :: is =>
    match visitor i with
    | .error e => ([], some e)
    | .ok a =>
      let (answers, failure) := visitAll visitor is
      (a :: answers, failure)

section Visits

variable {ε α : Type} {visitor : Item → Except ε α} {items before : List Item} {answers : List α}
  {e : ε}

/-- Where items have been answered for, the visit goes on with the next one. -/
theorem visitAll_append (answered : before.map visitor = answers.map .ok) (items : List Item) :
    visitAll visitor (before ++ items) =
      (answers ++ (visitAll visitor items).1, (visitAll visitor items).2) := by
  induction before generalizing answers with
  | nil =>
    obtain rfl : [] = answers := by simpa using answered
    rfl
  | cons i is ih =>
    cases answers with
    | nil => cases answered
    | cons a answers =>
      obtain ⟨said, later⟩ := List.cons.inj answered
      rw [List.cons_append, visitAll, said, ih later, List.cons_append]

/-- A visitor that does not fail has answered for every item. -/
theorem visitAll_eq_none_iff :
    visitAll visitor items = (answers, none) ↔ items.map visitor = answers.map .ok := by
  refine ⟨?_, ?_⟩
  · intro ended
    induction items generalizing answers with
    | nil =>
      obtain rfl : [] = answers := congrArg Prod.fst ended
      rfl
    | cons i is ih =>
      cases said : visitor i with
      | error e => simp [visitAll, said] at ended
      | ok a =>
        simp only [visitAll, said, Prod.mk.injEq] at ended
        obtain ⟨rfl, finished⟩ := ended
        rw [List.map_cons, List.map_cons, said, ih (Prod.ext rfl finished)]
  · intro answered
    have whole := visitAll_append answered []
    rwa [List.append_nil, visitAll, List.append_nil] at whole

/-- A visitor that fails has answered for the items in front of the one that it fails at. -/
theorem visitAll_eq_some_iff :
    visitAll visitor items = (answers, some e) ↔
      ∃ before i after, items = before ++ i :: after ∧ before.map visitor = answers.map .ok ∧
        visitor i = .error e := by
  refine ⟨?_, ?_⟩
  · intro ended
    induction items generalizing answers with
    | nil => simp [visitAll] at ended
    | cons i is ih =>
      cases said : visitor i with
      | error e' =>
        obtain ⟨rfl, rfl⟩ : [] = answers ∧ e' = e := by simpa [visitAll, said] using ended
        exact ⟨[], i, is, rfl, rfl, said⟩
      | ok a =>
        simp only [visitAll, said, Prod.mk.injEq] at ended
        obtain ⟨rfl, failure⟩ := ended
        obtain ⟨before, j, after, rfl, answered, failed⟩ := ih (Prod.ext rfl failure)
        exact ⟨i :: before, j, after, rfl, by simp [said, answered], failed⟩
  · intro h
    obtain ⟨before, i, after, rfl, answered, failed⟩ := h
    rw [visitAll_append answered, visitAll, failed, List.append_nil]

end Visits

/-- Induction over items, with the hypothesis for every element and field. -/
@[elab_as_elim, induction_eliminator]
theorem induction {motive : Item → Prop}
    (number : ∀ k bits, motive (.number k bits))
    (bool : ∀ b, motive (.bool b))
    (text : ∀ s, motive (.text s))
    (sequence : ∀ elements, (∀ i ∈ elements, motive i) → motive (.sequence elements))
    (union : ∀ d payload, motive payload → motive (.union d payload))
    (composite : ∀ fields, (∀ i ∈ fields, motive i) → motive (.composite fields))
    (item : Item) : motive item :=
  @Item.rec motive (fun items => ∀ i ∈ items, motive i)
    number bool text sequence union composite
    (fun _ h => absurd h List.not_mem_nil)
    (fun _ _ hd tl _ h => (List.mem_cons.mp h).elim (fun e => e ▸ hd) (tl _))
    item

end Item

end FlatCodec
