import FlatCodec.Proofs.Occurrence
import FlatCodec.Value.Agreement
import FlatCodec.Value.Merge
import Mathlib.Logic.Basic

namespace FlatCodec

namespace Data

variable {C : Catalogue}

/-- What each part begins with. -/
def initialPart : (p : Part C.Name) → Data C p
  | .one t => initial t
  | .many _ => .nil
  | .fields fs => initialFields fs
  | .body d => initialBody d

/-- A slot with initial content adds nothing to a value that has such content already. -/
theorem initialPart_merge_refresh {p : Part C.Name} (v : Data C p) :
    (initialPart p).merge v.refresh = v.refresh := by
  induction v with
  | number k bits => rfl
  | bool b => rfl
  | text s => rfl
  | unit => rfl
  | seq vs ih => rfl
  | box v ih => exact congrArg Data.box ih
  | absent => rfl
  | present v ih => rfl
  | oneOf i v ih => rfl
  | @named n v ih =>
    rw [initialPart, initial_named]
    exact congrArg Data.named ih
  | nil => rfl
  | cons v vs hv hvs => rfl
  | done => rfl
  | visited v vs hv hvs => exact congrArg₂ Data.visited hv hvs
  | @hidden t fs v vs hv hvs => exact congrArg (Data.hidden (initial t)) hvs
  | @flagged t fs b v vs hv hvs =>
    cases b with
    | true => exact congrArg₂ (Data.flagged true) hv hvs
    | false => exact congrArg (Data.flagged false (initial t)) hvs
  | record vs ih => exact congrArg Data.record ih
  | union i v ih => rfl
  | uniform i v ih => rfl

theorem initial_merge_refresh {t : Ty C.Name} (v : Value C t) :
    (initial t).merge v.refresh = v.refresh :=
  initialPart_merge_refresh v

theorem refresh_agrees {p : Part C.Name} (v : Data C p) : v.refresh.Agrees v := by
  induction v with
  | number k bits => exact .number k bits
  | bool b => exact .bool b
  | text s => exact .text s
  | unit => exact .unit
  | seq vs ih => exact .seq ih
  | box v ih => exact .box ih
  | absent => exact .absent
  | present v ih => exact .present ih
  | oneOf i v ih => exact .oneOf i ih
  | named v ih => exact .named ih
  | nil => exact .nil
  | cons v vs hv hvs => exact .cons hv hvs
  | done => exact .done
  | visited v vs hv hvs => exact .visited hv hvs
  | hidden v vs hv hvs => exact .hidden _ v hvs
  | flagged b v vs hv hvs =>
    cases b with
    | true => exact .on hv hvs
    | false => exact .off _ v hvs
  | record vs ih => exact .record ih
  | union i v ih => exact .union i ih
  | uniform i v ih => exact .uniform i ih

/-- Where every field is visited, nothing of a value is lost. -/
theorem refresh_eq_self {p : Part C.Name} (v : Data C p) (all : C.AllVisited p) :
    v.refresh = v := by
  induction v with
  | number k bits => rfl
  | bool b => rfl
  | text s => rfl
  | unit => rfl
  | seq vs ih => exact congrArg Data.seq (ih fun f fs h => all f fs (.elements h))
  | box v ih => exact congrArg Data.box (ih fun f fs h => all f fs (.boxed h))
  | absent => rfl
  | present v ih => exact congrArg Data.present (ih fun f fs h => all f fs (.present h))
  | oneOf i v ih => exact congrArg (Data.oneOf i) (ih fun f fs h => all f fs (.oneOf i h))
  | named v ih => exact congrArg Data.named (ih fun f fs h => all f fs (.declared h))
  | nil => rfl
  | cons v vs hv hvs =>
    exact congrArg₂ Data.cons (hv fun f fs h => all f fs (.element h)) (hvs all)
  | done => rfl
  | visited v vs hv hvs =>
    exact congrArg₂ Data.visited (hv fun f fs h => all f fs (.first h))
      (hvs fun f fs h => all f fs (.later h))
  | hidden v vs hv hvs =>
    obtain ⟨t, h⟩ := all _ _ .here
    cases h
  | flagged b v vs hv hvs =>
    obtain ⟨t, h⟩ := all _ _ .here
    cases h
  | record vs ih => exact congrArg Data.record (ih fun f fs h => all f fs (.record h))
  | union i v ih => exact congrArg (Data.union i) (ih fun f fs h => all f fs (.union i h))
  | uniform i v ih => exact congrArg (Data.uniform i) (ih fun f fs h => all f fs (.uniform h))

end Data

end FlatCodec
