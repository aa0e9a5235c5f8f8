import FlatCodec.Printer
import FlatCodec.Proofs.Alternative
import FlatCodec.Proofs.Levels
import FlatCodec.Proofs.Span
import FlatCodec.Sample
import Mathlib.Logic.Equiv.Defs

namespace FlatCodec

namespace Leveled

theorem fresh_map {ε σ α β : Type} (f : α → β) (x : EStateM ε (Leveled σ) α) :
    fresh (f <$> x) = f <$> fresh x := by
  funext s
  rw [map_apply, fresh, fresh, map_apply]
  cases x ⟨s, 0⟩ <;> rfl

end Leveled

namespace Data

variable {C : Catalogue} {t u : Ty C.Name} {k : Nat} {alternatives : Fin (k + 1) → Ty C.Name}

/-- An option is the anonymous union of nothing and the content. -/
def optionAsOneOf (t : Ty C.Name) : Value C (.option t) ≃ Value C (.oneOf2 .unit t) where
  toFun
    | .absent => .oneOf 0 .unit
    | .present v => .oneOf 1 v
  invFun
    | .oneOf 0 _ => .absent
    | .oneOf 1 v => .present v
  left_inv v := by cases v <;> rfl
  right_inv
    | .oneOf 0 .unit => rfl
    | .oneOf 1 _ => rfl

def bodyAsOneOf : (d : Decl C.Name) → d = .union k alternatives →
    Data C (.body d) ≃ Value C (.oneOf k alternatives)
  | _, rfl =>
    { toFun := fun | .union i v => .oneOf i v
      invFun := fun | .oneOf i v => .union i v
      left_inv := fun | .union _ _ => rfl
      right_inv := fun | .oneOf _ _ => rfl }

/-- A declared union is the anonymous one with the same alternatives in the same order. -/
def declaredAsOneOf {n : C.Name} (declared : C.decl n = .union k alternatives) :
    Value C (.named n) ≃ Value C (.oneOf k alternatives) where
  toFun | .named content => bodyAsOneOf _ declared content
  invFun v := .named ((bodyAsOneOf _ declared).symm v)
  left_inv
    | .named content => congrArg Data.named ((bodyAsOneOf _ declared).symm_apply_apply content)
  right_inv v := (bodyAsOneOf _ declared).apply_symm_apply v

/-- Values of two union types stand for each other: they begin alike, a visitor is shown the same
of them and they are written alike, and whatever bytes are read, the readings come to the same
error or to values that stand for each other, and to the same place. -/
structure Interchangeable (f : Value C t ≃ Value C u) : Prop where
  counted : C.alternatives t = C.alternatives u
  begun : f (initial t) = initial u
  discriminant (v : Value C t) : (f v).view.discriminant? = v.view.discriminant?
  written (options : EncodeOptions) (v : Value C t) :
    (f v).toBytesWith options = v.toBytesWith options
  traced (v : Value C t) : (f v).trace = v.trace
  read (limit : Nat) (slot : Value C t) (slot' : Value C u) :
    readInto limit slot' = f <$> readInto limit slot
  decoded (options : DecodeOptions) (slot : Value C t) (slot' : Value C u) (bytes : List UInt8) :
    fromBytesIntoWith options slot' bytes = (fromBytesIntoWith options slot bytes).map f
  chosen (limit i : Nat) : readChosen limit u i = f <$> readChosen limit t i

/-- What three tables say of a union decides all the rest: how many alternatives there are, what a
visitor is shown, and how the payload of each index is read. -/
theorem Interchangeable.of_tables {f : Value C t ≃ Value C u} (many : 0 < C.alternatives t)
    (counted : C.alternatives t = C.alternatives u) (begun : f (initial t) = initial u)
    (seen : ∀ v, (f v).view = v.view)
    (chosen : ∀ {ε σ : Type} [Cursor ε σ] (inner : SlotsOn ε σ C) (i : Nat),
      readAlternative inner u i = f <$> readAlternative inner t i) :
    Interchangeable f := by
  have read (limit : Nat) (slot : Value C t) (slot' : Value C u) :
      readInto limit slot' = f <$> readInto limit slot := by
    -- A payload never starts from the slot, so neither slot has a part in it.
    rw [readInto_eq, readInto_eq, readWithin_eq_readUnion many,
      readWithin_eq_readUnion (counted ▸ many), readUnion_map, counted]
    exact readUnion_congr fun inner i _ => chosen inner i
  refine ⟨counted, begun, fun v => ?_, fun options v => ?_, fun v => ?_, read, ?_, ?_⟩
  · rw [seen]
  · rw [toBytesWith, toBytesWith, seen]
  · rw [trace, trace, seen]
  · intro options slot slot' bytes
    exact fromBytesIntoWith_map (read options.maxDepth slot slot') bytes
  · intro limit i
    rw [readChosen, readChosen, chosen, Leveled.fresh_map]

theorem optionAsOneOf_view (v : Value C (.option t)) : (optionAsOneOf t v).view = v.view := by
  cases v <;> rfl

theorem readAlternative_optionAsOneOf {ε σ : Type} [Cursor ε σ] (inner : SlotsOn ε σ C) (i : Nat) :
    readAlternative inner (.oneOf2 .unit t) i =
      optionAsOneOf t <$> readAlternative inner (.option t) i := by
  rcases i with _ | _ | i
  · -- Nothing has one value, so it does not matter that an option does not keep it.
    have only (v : Value C .unit) : v = .unit := by cases v; rfl
    show (inner .unit .unit >>= fun v => pure (.oneOf 0 v)) =
      optionAsOneOf t <$> (inner .unit .unit >>= fun _ => pure .absent)
    rw [map_bind]
    refine bind_congr fun v => ?_
    rw [only v, map_pure]
    rfl
  · show (inner t (initial t) >>= fun v => pure (.oneOf 1 v)) =
      optionAsOneOf t <$> (inner t (initial t) >>= fun v => pure (.present v))
    rw [map_bind]
    refine bind_congr fun v => ?_
    rw [map_pure]
    rfl
  · rfl

theorem bodyAsOneOf_view {d : Decl C.Name} (declared : d = .union k alternatives)
    (v : Data C (.body d)) : (bodyAsOneOf d declared v).view = v.view := by
  subst declared
  cases v
  rfl

theorem bodyAsOneOf_initial {d : Decl C.Name} (declared : d = .union k alternatives) :
    bodyAsOneOf d declared (initialBody d) = initial (.oneOf k alternatives) := by
  subst declared
  rfl

theorem readAlternative_bodyAsOneOf {ε σ : Type} [Cursor ε σ] {d : Decl C.Name}
    (declared : d = .union k alternatives) (inner : SlotsOn ε σ C) (i : Nat) :
    readAlternative inner (.oneOf k alternatives) i =
      bodyAsOneOf d declared <$> readDeclAlternative inner d i := by
  subst declared
  rw [readAlternative, readDeclAlternative]
  by_cases known : i < k + 1
  · rw [dif_pos known, dif_pos known, map_bind]
    refine bind_congr fun v => ?_
    rw [map_pure]
    rfl
  · rw [dif_neg known, dif_neg known]
    rfl

/-- The three kinds of unions agree. An option and the anonymous union of nothing and its content
are interchangeable, and so are a declared union and the anonymous one with its alternatives. -/
theorem unions_interchangeable (C : Catalogue) :
    (∀ t : Ty C.Name, Interchangeable (optionAsOneOf t)) ∧
    ∀ (n : C.Name) (k : Nat) (alternatives : Fin (k + 1) → Ty C.Name)
      (declared : C.decl n = .union k alternatives),
        Interchangeable (declaredAsOneOf declared) := by
  refine ⟨?_, ?_⟩
  · intro t
    exact .of_tables Nat.two_pos rfl rfl optionAsOneOf_view readAlternative_optionAsOneOf
  · intro n k alternatives declared
    have counted : C.alternatives (.named n) = k + 1 := congrArg Decl.alternatives declared
    refine .of_tables (counted ▸ k.succ_pos) counted ?_ ?_ ?_
    · rw [initial_named]
      exact bodyAsOneOf_initial declared
    · intro v
      cases v with
      | named content => exact bodyAsOneOf_view declared content
    · intro ε σ cursor inner i
      show _ = declaredAsOneOf declared <$>
        (readDeclAlternative inner (C.decl n) i >>= fun content => pure (.named content))
      rw [map_bind, readAlternative_bodyAsOneOf declared]
      simp only [map_pure, bind_pure_comp]
      rfl

/-- The declared commands and the anonymous union of nothing, a text and a triple, where the second
alternative stands for the second and an index that wraps around to the second is still refused. -/
theorem unions_interchangeable_command :
    ∃ declared : sample.decl .command =
        .union 2 fun | 0 => .unit | 1 => .text | 2 => .named .triple,
      let f : Value sample (.named .command) ≃
        Value sample (.oneOf3 .unit .text (.named .triple)) := declaredAsOneOf declared
      Interchangeable f ∧ f (.named (.union 1 (.text "on"))) = .oneOf 1 (.text "on") ∧
        readChosen (C := sample) 2 (.oneOf3 .unit .text (.named .triple)) 257
          (.ofBytes [1, 65]) = .error (.invalidTag 1 3) ⟨0, [1, 65]⟩ := by
  refine ⟨rfl, ?_⟩
  intro f
  have agree : Interchangeable f := (unions_interchangeable sample).2 .command 2 _ rfl
  have refused : readChosen (C := sample) 2 (.named .command) 257 (.ofBytes [1, 65]) =
      .error (.invalidTag 1 3) ⟨0, [1, 65]⟩ := rfl
  refine ⟨agree, rfl, ?_⟩
  rw [agree.chosen, map_apply, refused]

end Data

end FlatCodec
