import FlatCodec.Value.View

namespace FlatCodec

/-- What a visitor is shown inside a part: what lies in one item, or the items in a row. -/
def Part.children {ν : Type} : {p : Part ν} → p.View → List Item
  | .one _, i => i.children
  | .many _, is => is
  | .fields _, is => is
  | .body _, i => i.children

namespace Data

variable {C : Catalogue}

/-- The values that a value hands to a visitor, in order: the visited fields of a record, the
payload of a union, the elements of a sequence. The payload of an absent option is nothing, and
a box hands over what its content does. -/
def handed : {p : Part C.Name} → Data C p → List (AnyValue C)
  | _, number .. => []
  | _, bool _ => []
  | _, text _ => []
  | _, unit => []
  | _, seq elements => elements.handed
  | _, box content => content.handed
  | _, absent => [⟨_, .unit⟩]
  | _, present content => [⟨_, content⟩]
  | _, oneOf _ payload => [⟨_, payload⟩]
  | _, named content => content.handed
  | _, nil => []
  | _, cons head tail => ⟨_, head⟩ :: tail.handed
  | _, done => []
  | _, visited value rest => ⟨_, value⟩ :: rest.handed
  | _, hidden _ rest => rest.handed
  | _, flagged true value rest => ⟨_, .bool true⟩ :: ⟨_, value⟩ :: rest.handed
  | _, flagged false _ rest => ⟨_, .bool false⟩ :: rest.handed
  | _, record fields => fields.handed
  | _, union _ payload => [⟨_, payload⟩]
  | _, uniform _ payload => [⟨_, payload⟩]

/-- A visitor is shown what is handed over, and nothing else. -/
theorem handed_view {p : Part C.Name} (v : Data C p) :
    v.handed.map (·.2.view) = Part.children v.view := by
  induction v with
  | number k bits => rfl
  | bool b => rfl
  | text s => rfl
  | unit => rfl
  | seq vs ih => exact ih
  | box v ih => exact ih
  | absent => rfl
  | present v ih => rfl
  | oneOf i v ih => rfl
  | named v ih => exact ih
  | nil => rfl
  | cons v vs hv hvs => exact congrArg (List.cons v.view) hvs
  | done => rfl
  | visited v vs hv hvs => exact congrArg (List.cons v.view) hvs
  | hidden v vs hv hvs => exact hvs
  | flagged b v vs hv hvs =>
    cases b with
    | true => exact congrArg (List.cons (Item.bool true)) (congrArg (List.cons v.view) hvs)
    | false => exact congrArg (List.cons (Item.bool false)) hvs
  | record vs ih => exact ih
  | union i v ih => rfl
  | uniform i v ih => rfl

/-- From outside, a value is visited as what it hands over: a visitor answers for one of these
after the other, and where it fails it has answered for all before. -/
theorem visitAll_children {ε α : Type} {t : Ty C.Name} (visitor : Item → Except ε α)
    (v : Value C t) (answers : List α) :
    (Item.visitAll visitor v.view.children = (answers, none) ↔
      v.handed.map (visitor ·.2.view) = answers.map .ok) ∧
    ∀ e, Item.visitAll visitor v.view.children = (answers, some e) ↔
      ∃ before u after, v.handed = before ++ u :: after ∧
        before.map (visitor ·.2.view) = answers.map .ok ∧ visitor u.2.view = .error e := by
  have shown : v.handed.map (·.2.view) = v.view.children := handed_view v
  rw [← shown]
  refine ⟨?_, ?_⟩
  · rw [Item.visitAll_eq_none_iff, List.map_map]
    rfl
  · intro e
    rw [Item.visitAll_eq_some_iff]
    refine ⟨?_, ?_⟩
    · intro h
      obtain ⟨_, _, _, split, answered, failed⟩ := h
      obtain ⟨before, rest, handed, rfl, later⟩ := List.map_eq_append_iff.mp split
      obtain ⟨u, after, rfl, rfl, -⟩ := List.map_eq_cons_iff.mp later
      rw [List.map_map] at answered
      exact ⟨before, u, after, handed, answered, failed⟩
    · intro h
      obtain ⟨before, u, after, handed, answered, failed⟩ := h
      refine ⟨before.map (·.2.view), u.2.view, after.map (·.2.view), ?_, ?_, failed⟩
      · rw [handed, List.map_append, List.map_cons]
      · rw [List.map_map]
        exact answered

end Data

end FlatCodec
