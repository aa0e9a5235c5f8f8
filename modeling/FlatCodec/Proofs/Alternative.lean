import FlatCodec.Proofs.Sequencing
import FlatCodec.Value.Read

namespace FlatCodec

namespace Data

variable {C : Catalogue} {α β : Type} {limit room : Nat} {deeper : Option (Slots C)}

theorem nested_map (f : α → β) (body : Slots C → Reading α) :
    f <$> nested limit deeper body = nested limit deeper fun inner => f <$> body inner := by
  cases deeper with
  | none => rfl
  | some inner => rfl

theorem nested_congr {body body' : Slots C → Reading α}
    (same : ∀ n, room = n + 1 → body (readWithin limit n) = body' (readWithin limit n)) :
    nested limit (furtherIn limit room) body = nested limit (furtherIn limit room) body' := by
  cases room with
  | zero => rfl
  | succ n => exact same n rfl

/-- A union asks only for alternatives below their number; what lies beyond does not matter. -/
theorem readUnion_congr {alternatives : Nat} {payload payload' : Slots C → Nat → Reading α}
    (same : ∀ inner, ∀ i < alternatives, payload inner i = payload' inner i) :
    readUnion limit deeper alternatives payload = readUnion limit deeper alternatives payload' := by
  refine bind_congr fun tag => ?_
  by_cases known : alternatives ≤ tag.toNat
  · simp only [if_pos known]
    rfl
  · simp only [if_neg known]
    cases deeper with
    | none => rfl
    | some inner => exact same inner tag.toNat (Nat.lt_of_not_le known)

theorem readUnion_map (f : α → β) (alternatives : Nat) (payload : Slots C → Nat → Reading α) :
    f <$> readUnion limit deeper alternatives payload =
      readUnion limit deeper alternatives fun inner i => f <$> payload inner i := by
  rw [readUnion, readUnion, map_bind]
  refine bind_congr fun tag => ?_
  by_cases known : alternatives ≤ tag.toNat
  · simp only [if_pos known]
    rfl
  · simp only [if_neg known]
    exact nested_map f _

theorem readBody_eq_readUnion {d : Decl C.Name} (many : 0 < d.alternatives)
    (slot : Data C (.body d)) :
    (readBody limit deeper d slot : Reading _) =
      readUnion limit deeper d.alternatives fun inner i => readDeclAlternative inner d i := by
  cases d with
  | record fs => exact absurd many (Nat.lt_irrefl 0)
  | union k alternatives => rfl
  | uniform n t => rfl

/-- A type with alternatives is read by a tag and the alternative that the tag names. -/
theorem readWithin_eq_readUnion {t : Ty C.Name} (many : 0 < C.alternatives t) (slot : Value C t) :
    (readWithin limit room t slot : Reading _) =
      readUnion limit (furtherIn limit room) (C.alternatives t) fun inner i =>
        readAlternative inner t i := by
  rw [readWithin_eq]
  cases t with
  | option t => rfl
  | oneOf k alternatives => rfl
  | named n =>
    cases slot with
    | named slot =>
      have content : (readBody limit (furtherIn limit room) (C.decl n) slot : Reading _) = _ :=
        readBody_eq_readUnion many slot
      rw [readOne, bind_pure_comp, content, readUnion_map]
      simp only [← bind_pure_comp]
      rfl
  | _ => exact absurd many (Nat.lt_irrefl 0)

end Data

end FlatCodec
