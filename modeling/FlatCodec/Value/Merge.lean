import FlatCodec.Value.Initial

namespace FlatCodec

namespace Data

variable {C : Catalogue}

/-- What a used slot holds after a value was decoded into it: the value, with the slot's own
content in the places that are not visited. A union takes nothing over, since its payload
never starts from the slot, and neither do elements beyond the end of the slot. -/
def merge : {p : Part C.Name} → (slot value : Data C p) → Data C p
  | _, .number .., v => v
  | _, .bool _, v => v
  | _, .text _, v => v
  | _, .unit, v => v
  | _, .seq slots, .seq vs => .seq (slots.merge vs)
  | _, .box slot, .box v => .box (slot.merge v)
  | _, .absent, v => v
  | _, .present _, v => v
  | _, .oneOf .., v => v
  | _, .named slot, .named v => .named (slot.merge v)
  | _, .nil, vs => vs
  | _, .cons .., .nil => .nil
  | _, .cons slot slots, .cons v vs => .cons (slot.merge v) (slots.merge vs)
  | _, .done, .done => .done
  | _, .visited slot slots, .visited v vs => .visited (slot.merge v) (slots.merge vs)
  | _, .hidden slot slots, .hidden _ vs => .hidden slot (slots.merge vs)
  | _, .flagged _ slot slots, .flagged true v vs => .flagged true (slot.merge v) (slots.merge vs)
  | _, .flagged _ slot slots, .flagged false _ vs => .flagged false slot (slots.merge vs)
  | _, .record slots, .record vs => .record (slots.merge vs)
  | _, .union .., v => v
  | _, .uniform .., v => v

section Unions

variable {t : Ty C.Name} {k : Nat} {alternatives : Fin (k + 1) → Ty C.Name}

@[simp] theorem merge_absent (slot : Value C (.option t)) : slot.merge .absent = .absent := by
  cases slot <;> rfl

@[simp] theorem merge_present (slot : Value C (.option t)) (v : Value C t) :
    slot.merge (.present v) = .present v := by
  cases slot <;> rfl

@[simp] theorem merge_oneOf (slot : Value C (.oneOf k alternatives)) (i : Fin (k + 1))
    (v : Value C (alternatives i)) : slot.merge (.oneOf i v) = .oneOf i v := by
  cases slot
  rfl

@[simp] theorem merge_union (slot : Data C (.body (.union k alternatives))) (i : Fin (k + 1))
    (v : Value C (alternatives i)) : slot.merge (.union i v) = .union i v := by
  cases slot
  rfl

@[simp] theorem merge_uniform (slot : Data C (.body (.uniform k t))) (i : Nat) (v : Value C t) :
    slot.merge (.uniform i v) = .uniform i v := by
  cases slot
  rfl

end Unions

/-- The value with initial content in every place that is not visited, which is what comes
back when it is encoded and decoded. -/
def refresh : {p : Part C.Name} → Data C p → Data C p
  | _, .number k bits => .number k bits
  | _, .bool b => .bool b
  | _, .text s => .text s
  | _, .unit => .unit
  | _, .seq vs => .seq vs.refresh
  | _, .box v => .box v.refresh
  | _, .absent => .absent
  | _, .present v => .present v.refresh
  | _, .oneOf i v => .oneOf i v.refresh
  | _, .named v => .named v.refresh
  | _, .nil => .nil
  | _, .cons v vs => .cons v.refresh vs.refresh
  | _, .done => .done
  | _, .visited v vs => .visited v.refresh vs.refresh
  | _, @hidden _ t _ _ vs => .hidden (initial t) vs.refresh
  | _, .flagged true v vs => .flagged true v.refresh vs.refresh
  | _, @flagged _ t _ false _ vs => .flagged false (initial t) vs.refresh
  | _, .record vs => .record vs.refresh
  | _, .union i v => .union i v.refresh
  | _, .uniform i v => .uniform i v.refresh

end Data

end FlatCodec
