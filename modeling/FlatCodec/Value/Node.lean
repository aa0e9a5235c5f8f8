import FlatCodec.Item.Layout
import FlatCodec.Value.View

namespace FlatCodec

/-- A visited place in a value: what a visitor is shown there, and where it lies. -/
structure Node where
  item : Item
  /-- The number of alternatives, where the place is a union. -/
  alternatives : Nat := 0
  /-- How many sequences, unions and composites are around it. -/
  levels : Nat := 0
  /-- How many bytes are written before it. -/
  offset : Nat := 0

namespace Node

/-- The node behind so many bytes more. -/
def behind (bytes : Nat) (n : Node) : Node := { n with offset := bytes + n.offset }

/-- The node inside another one, which writes so many bytes before what it contains. -/
def inside (bytes : Nat) (n : Node) : Node := { n.behind bytes with levels := n.levels + 1 }

@[simp] theorem behind_item (bytes : Nat) (n : Node) : (n.behind bytes).item = n.item := rfl

@[simp] theorem behind_alternatives (bytes : Nat) (n : Node) :
    (n.behind bytes).alternatives = n.alternatives := rfl

@[simp] theorem behind_levels (bytes : Nat) (n : Node) : (n.behind bytes).levels = n.levels := rfl

@[simp] theorem behind_offset (bytes : Nat) (n : Node) :
    (n.behind bytes).offset = bytes + n.offset := rfl

@[simp] theorem inside_item (bytes : Nat) (n : Node) : (n.inside bytes).item = n.item := rfl

@[simp] theorem inside_alternatives (bytes : Nat) (n : Node) :
    (n.inside bytes).alternatives = n.alternatives := rfl

@[simp] theorem inside_levels (bytes : Nat) (n : Node) :
    (n.inside bytes).levels = n.levels + 1 := rfl

@[simp] theorem inside_offset (bytes : Nat) (n : Node) :
    (n.inside bytes).offset = bytes + n.offset := rfl

end Node

namespace Data

variable {C : Catalogue}

/-- The visited places of a value on a walk in writing order, each before what lies inside it. A
box and a name are no places of their own; a flag is one, and so is the empty composite of an
absent option. -/
def nodes : {p : Part C.Name} → Data C p → List Node
  | _, number k bits => [{ item := .number k bits }]
  | _, bool b => [{ item := .bool b }]
  | _, text s => [{ item := .text s }]
  | _, unit => [{ item := .composite [] }]
  | _, seq elements => { item := .sequence elements.view } :: elements.nodes.map (Node.inside 1)
  | _, box content => content.nodes
  | _, absent =>
    [{ item := .union 0 (.composite []), alternatives := 2 },
      Node.inside 1 { item := .composite [] }]
  | _, present content =>
    { item := .union 1 content.view, alternatives := 2 } :: content.nodes.map (Node.inside 1)
  | _, @oneOf _ k _ i payload =>
    { item := .union i.val payload.view, alternatives := k + 1 } ::
      payload.nodes.map (Node.inside 1)
  | _, named content => content.nodes
  | _, nil => []
  | _, cons head tail => head.nodes ++ tail.nodes.map (Node.behind head.view.layout.length)
  | _, done => []
  | _, visited value rest => value.nodes ++ rest.nodes.map (Node.behind value.view.layout.length)
  | _, hidden _ rest => rest.nodes
  | _, flagged true value rest =>
    { item := .bool true } ::
      (value.nodes ++ rest.nodes.map (Node.behind value.view.layout.length)).map (Node.behind 1)
  | _, flagged false _ rest => { item := .bool false } :: rest.nodes.map (Node.behind 1)
  | _, record fields => { item := .composite fields.view } :: fields.nodes.map (Node.inside 0)
  | _, @union _ k _ i payload =>
    { item := .union i.val payload.view, alternatives := k + 1 } ::
      payload.nodes.map (Node.inside 1)
  | _, @uniform _ n _ index payload =>
    { item := .union index payload.view, alternatives := n } :: payload.nodes.map (Node.inside 1)

end Data

end FlatCodec
