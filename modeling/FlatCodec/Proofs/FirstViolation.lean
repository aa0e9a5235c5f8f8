import FlatCodec.Item.Violation
import FlatCodec.Proofs.Acceptance
import FlatCodec.Value.Node

namespace FlatCodec

/-- All that is wrong with the places of a walk, where so many levels are around the whole. -/
def violations (limit opened : Nat) (nodes : List Node) : List EncodeError :=
  nodes.flatMap fun n => n.item.ownViolations limit (opened + n.levels)

section Walks

variable {limit opened : Nat} {n : Node} {ns ms : List Node}

theorem violations_cons :
    violations limit opened (n :: ns) =
      n.item.ownViolations limit (opened + n.levels) ++ violations limit opened ns :=
  List.flatMap_cons

theorem violations_append :
    violations limit opened (ns ++ ms) =
      violations limit opened ns ++ violations limit opened ms :=
  List.flatMap_append

/-- What is written before some places is of no matter. -/
theorem violations_behind (bytes : Nat) :
    violations limit opened (ns.map (.behind bytes)) = violations limit opened ns :=
  List.flatMap_map ..

theorem violations_inside (bytes : Nat) :
    violations limit opened (ns.map (.inside bytes)) = violations limit (opened + 1) ns := by
  rw [violations, violations, List.flatMap_map]
  refine congrArg (List.flatMap · ns) (funext fun n => ?_)
  rw [Node.inside_item, Node.inside_levels, Nat.add_right_comm, Nat.add_assoc]

end Walks

namespace Item

variable {limit opened : Nat}

/-- An item is looked at itself before what lies inside it is. -/
theorem fault?_eq_or (i : Item) :
    fault? limit opened i =
      (i.ownViolations limit opened).head?.or (faultAll? limit (opened + 1) i.children) := by
  cases i with
  | number k bits => rfl
  | bool b => rfl
  | text s =>
    simp only [fault?, ownViolations, tooLong]
    split_ifs <;> rfl
  | sequence elements =>
    simp only [fault?, ownViolations, tooLong, tooDeep]
    split_ifs <;> rfl
  | union d payload =>
    simp only [fault?, ownViolations, tooHigh, tooDeep, children, faultAll?_eq_findSome?]
    split_ifs <;> simp
  | composite fields =>
    simp only [fault?, ownViolations, tooDeep]
    split_ifs <;> rfl

theorem faultAll?_cons (i : Item) (is : List Item) :
    faultAll? limit opened (i :: is) = (fault? limit opened i).or (faultAll? limit opened is) := by
  rw [faultAll?]
  cases fault? limit opened i <;> rfl

/-- Where the first fault of what lies inside an item comes first among all that is wrong there, the
first fault of the item comes first among all that is wrong with it. -/
theorem fault?_eq_head? {i : Item} {ns : List Node} (alternatives bytes : Nat)
    (inside : faultAll? limit (opened + 1) i.children =
      (violations limit (opened + 1) ns).head?) :
    fault? limit opened i =
      (violations limit opened ({ item := i, alternatives } :: ns.map (.inside bytes))).head? := by
  rw [fault?_eq_or, inside, violations_cons, violations_inside, List.head?_append]
  rfl

/-- The only thing inside a union is its payload. -/
theorem fault?_union_eq_head? {d alternatives : Nat} {payload : Item} {ns : List Node}
    (inside : fault? limit (opened + 1) payload = (violations limit (opened + 1) ns).head?) :
    fault? limit opened (.union d payload) =
      (violations limit opened
        ({ item := .union d payload, alternatives } :: ns.map (.inside 1))).head? := by
  apply fault?_eq_head?
  rw [children, faultAll?_cons, inside, faultAll?, Option.or_none]

/-- An item with nothing inside is all that can be wrong there. -/
theorem fault?_leaf_eq_head? {i : Item} (leaf : i.children = []) :
    fault? limit opened i = (violations limit opened [{ item := i }]).head? := by
  have nothing : faultAll? limit (opened + 1) i.children =
      (violations limit (opened + 1) []).head? := by
    rw [leaf]
    rfl
  exact fault?_eq_head? 0 0 nothing

end Item

/-- The first thing wrong with a part on a walk in writing order. -/
def Part.fault? {ν : Type} (limit opened : Nat) : {p : Part ν} → p.View → Option EncodeError
  | .one _, i => i.fault? limit opened
  | .many _, is => Item.faultAll? limit opened is
  | .fields _, is => Item.faultAll? limit opened is
  | .body _, i => i.fault? limit opened

namespace Data

variable {C : Catalogue} {limit opened : Nat}

open Item

private theorem faultAll?_eq_head? {i : Item} {is : List Item} {ns ms : List Node} {bytes : Nat}
    (head : fault? limit opened i = (violations limit opened ns).head?)
    (tail : faultAll? limit opened is = (violations limit opened ms).head?) :
    faultAll? limit opened (i :: is) =
      (violations limit opened (ns ++ ms.map (.behind bytes))).head? := by
  rw [faultAll?_cons, head, tail, violations_append, violations_behind, List.head?_append]

/-- A walk that ends at the first fault finds what comes first among all that is wrong. -/
theorem fault?_eq_head? {p : Part C.Name} (v : Data C p) :
    Part.fault? limit opened v.view = (violations limit opened v.nodes).head? := by
  induction v generalizing opened with
  | number k bits => rfl
  | bool b => rfl
  | text s => exact fault?_leaf_eq_head? rfl
  | unit => exact fault?_leaf_eq_head? rfl
  | seq vs ih => exact Item.fault?_eq_head? 0 1 ih
  | box v ih => exact ih
  | absent => exact fault?_union_eq_head? (fault?_leaf_eq_head? rfl)
  | present v ih => exact fault?_union_eq_head? ih
  | oneOf i v ih => exact fault?_union_eq_head? ih
  | named v ih => exact ih
  | nil => rfl
  | cons v vs hv hvs => exact faultAll?_eq_head? hv hvs
  | done => rfl
  | visited v vs hv hvs => exact faultAll?_eq_head? hv hvs
  | hidden v vs hv hvs => exact hvs
  | flagged b v vs hv hvs =>
    -- The flag itself is never wrong.
    cases b with
    | true =>
      rw [nodes, violations_cons, violations_behind]
      exact faultAll?_eq_head? hv hvs
    | false =>
      rw [nodes, violations_cons, violations_behind]
      exact hvs
  | record vs ih => exact Item.fault?_eq_head? 0 0 ih
  | union i v ih => exact fault?_union_eq_head? ih
  | uniform i v ih => exact fault?_union_eq_head? ih

variable {t : Ty C.Name}

theorem mem_violations_of_fault? {v : Value C t} {e : EncodeError}
    (fault : v.view.fault? limit opened = some e) : e ∈ violations limit opened v.nodes := by
  have found : v.view.fault? limit opened = _ := fault?_eq_head? v
  exact List.mem_of_head? (found.symm.trans fault)

/-- Encoding fails exactly where a walk over the value in writing order meets something wrong, and
with what it meets first, however much else is wrong with the value. -/
theorem toBytesWith_first_violation (options : EncodeOptions) (v : Value C t) :
    (∀ e : EncodeError, v.toBytesWith options = .error e ↔
      (violations options.maxDepth 0 v.nodes).head? = some e) ∧
    ((∃ bytes, v.toBytesWith options = .ok bytes) ↔
      violations options.maxDepth 0 v.nodes = []) := by
  have found : v.view.fault? options.maxDepth 0 = _ := fault?_eq_head? v
  rw [← List.head?_eq_none_iff, ← found]
  simp only [toBytesWith, toBytes_eq]
  cases v.view.fault? options.maxDepth 0 with
  | none => simp
  | some e => simp

end Data

end FlatCodec
