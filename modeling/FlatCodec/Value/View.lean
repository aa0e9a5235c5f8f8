import FlatCodec.Item
import FlatCodec.Value

namespace FlatCodec

/-- What is seen of a part: one item of a value, a list of elements or fields. -/
abbrev Part.View {ν : Type} : Part ν → Type
  | .one _ => Item
  | .many _ => List Item
  | .fields _ => List Item
  | .body _ => Item

namespace Data

variable {C : Catalogue}

/-- The visited parts of a value. A box is seen through, an absent option is a union with an
empty composite, and the body of a flagged field is seen where the flag holds. -/
def view : {p : Part C.Name} → Data C p → p.View
  | _, number k bits => Item.number k bits
  | _, bool b => Item.bool b
  | _, text s => Item.text s
  | _, unit => Item.composite []
  | _, seq elements => Item.sequence elements.view
  | _, box content => content.view
  | _, absent => Item.union 0 (.composite [])
  | _, present content => Item.union 1 content.view
  | _, oneOf i payload => Item.union i.val payload.view
  | _, named content => content.view
  | _, nil => []
  | _, cons head tail => head.view :: tail.view
  | _, done => []
  | _, visited value rest => value.view :: rest.view
  | _, hidden _ rest => rest.view
  | _, flagged true value rest => Item.bool true :: value.view :: rest.view
  | _, flagged false _ rest => Item.bool false :: rest.view
  | _, record fields => Item.composite fields.view
  | _, union i payload => Item.union i.val payload.view
  | _, uniform index payload => Item.union index payload.view

end Data

end FlatCodec
