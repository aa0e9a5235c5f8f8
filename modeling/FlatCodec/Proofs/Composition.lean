import FlatCodec.Printer
import FlatCodec.Proofs.Acceptance
import FlatCodec.Proofs.Occurrence
import FlatCodec.Value.Handed

namespace FlatCodec

/-- The same failure where the limit is one higher. -/
def EncodeError.raised : EncodeError → EncodeError
  | .depthExceeded max => .depthExceeded (max + 1)
  | e => e

namespace Item

variable {limit opened : Nat}

private theorem faultAll?_raised {items : List Item}
    (each : ∀ i ∈ items, fault? (limit + 1) (opened + 1) i =
      (fault? limit opened i).map EncodeError.raised) :
    faultAll? (limit + 1) (opened + 1) items =
      (faultAll? limit opened items).map EncodeError.raised := by
  induction items with
  | nil => rfl
  | cons i is ih =>
    have head := each i List.mem_cons_self
    have tail := ih fun j hj => each j (List.mem_cons_of_mem _ hj)
    rw [faultAll?, faultAll?, head, tail]
    cases fault? limit opened i <;> rfl

/-- One level further in, under a limit one higher, a walk meets the same fault. -/
theorem fault?_raised (i : Item) :
    fault? (limit + 1) (opened + 1) i = (fault? limit opened i).map EncodeError.raised := by
  induction i generalizing opened with
  | number k bits => rfl
  | bool b => rfl
  | text s =>
    rw [fault?, fault?]
    split <;> rfl
  | sequence elements ih =>
    rw [fault?, fault?, faultAll?_raised fun i hi => ih i hi]
    simp only [Nat.add_le_add_iff_right]
    split_ifs <;> rfl
  | union d payload ih =>
    rw [fault?, fault?, ih]
    simp only [Nat.add_le_add_iff_right]
    split_ifs <;> rfl
  | composite fields ih =>
    rw [fault?, fault?, faultAll?_raised fun i hi => ih i hi]
    simp only [Nat.add_le_add_iff_right]
    split_ifs <;> rfl

theorem toBytes_eq_error_iff {i : Item} {e : EncodeError} :
    i.toBytes limit = .error e ↔ fault? limit 0 i = some e := by
  rw [toBytes_eq]
  cases fault? limit 0 i <;> simp

/-- The outermost level of a composite is there under every limit but zero, so what is wrong with it
is what is wrong with its fields under the limit that is left. -/
theorem fault?_composite_raised (fields : List Item) :
    fault? (limit + 1) 0 (.composite fields) =
      (faultAll? limit 0 fields).map EncodeError.raised := by
  rw [fault?, if_neg (Nat.not_succ_le_zero limit)]
  exact faultAll?_raised fun i _ => fault?_raised i

theorem fault?_union_raised {d : Nat} (low : d ≤ maxDiscriminant) (payload : Item) :
    fault? (limit + 1) 0 (.union d payload) = (fault? limit 0 payload).map EncodeError.raised := by
  rw [fault?, if_neg (Nat.not_lt.mpr low), if_neg (Nat.not_succ_le_zero limit)]
  exact fault?_raised payload

theorem eq_composite {i : Item} (h : i.category = .composite) : i = .composite i.children := by
  cases i with
  | composite fields => rfl
  | _ => cases h

theorem eq_union {i : Item} (h : i.category = .taggedUnion) :
    ∃ d payload, i = .union d payload := by
  cases i with
  | union d payload => exact ⟨d, payload, rfl⟩
  | _ => cases h

end Item

namespace Data

open Item

variable {C : Catalogue} {t : Ty C.Name} {limit : Nat} {vs : List (AnyValue C)}

theorem body_category {d : Decl C.Name} (v : Data C (.body d)) :
    v.view.category = d.category := by
  cases v <;> rfl

/-- What is seen of a value has the category of its type. -/
theorem view_category : {t : Ty C.Name} → (v : Value C t) → v.view.category = C.category t
  | _, .number .. => rfl
  | _, .bool _ => rfl
  | _, .text _ => rfl
  | _, .unit => rfl
  | _, .seq _ => rfl
  | _, .box content => view_category content
  | _, .absent => rfl
  | _, .present _ => rfl
  | _, .oneOf .. => rfl
  | _, .named content => body_category content

/-- Each of some values has a byte form by itself, and these are the forms. -/
def FormsOf (limit : Nat) (vs : List (AnyValue C)) (forms : List (List UInt8)) : Prop :=
  vs.map (fun v => v.2.toBytesWith { maxDepth := limit }) = forms.map .ok

/-- The first of some values that has no byte form by itself has none for this reason. -/
def FirstFails (limit : Nat) (vs : List (AnyValue C)) (e : EncodeError) : Prop :=
  ∃ before v after, vs = before ++ v :: after ∧
    (∀ u ∈ before, ∃ bytes, u.2.toBytesWith { maxDepth := limit } = .ok bytes) ∧
      v.2.toBytesWith { maxDepth := limit } = .error e

theorem toBytesWith_eq_ok_iff {v : Value C t} {bytes : List UInt8} :
    v.toBytesWith { maxDepth := limit } = .ok bytes ↔
      fault? limit 0 v.view = none ∧ bytes = v.view.layout := by
  rw [toBytesWith, toBytes_eq]
  cases fault? limit 0 v.view <;> simp [eq_comm]

theorem exists_toBytesWith_iff {v : Value C t} :
    (∃ bytes, v.toBytesWith { maxDepth := limit } = .ok bytes) ↔
      fault? limit 0 v.view = none := by
  simp only [toBytesWith_eq_ok_iff, exists_and_left, exists_eq, and_true]

theorem formsOf_iff {forms : List (List UInt8)} :
    FormsOf limit vs forms ↔
      faultAll? limit 0 (vs.map (·.2.view)) = none ∧ forms = vs.map (·.2.view.layout) := by
  induction vs generalizing forms with
  | nil => simp [FormsOf, faultAll?, eq_comm]
  | cons v vs ih =>
    cases forms with
    | nil => simp [FormsOf]
    | cons form forms =>
      have tail := @ih forms
      simp only [FormsOf] at tail
      simp only [FormsOf, List.map_cons, List.cons.injEq, tail, toBytesWith_eq_ok_iff,
        faultAll?_cons_eq_none_iff]
      exact and_and_and_comm

theorem firstFails_iff {e : EncodeError} :
    FirstFails limit vs e ↔ faultAll? limit 0 (vs.map (·.2.view)) = some e := by
  have failed (v : AnyValue C) : v.2.toBytesWith { maxDepth := limit } = .error e ↔
      fault? limit 0 v.2.view = some e := toBytes_eq_error_iff
  rw [faultAll?_eq_findSome?, List.findSome?_map, List.findSome?_eq_some_iff]
  simp only [FirstFails, exists_toBytesWith_iff, failed, Function.comp_apply]
  refine exists_congr fun before => exists_congr fun v => exists_congr fun after => ?_
  rw [and_comm (a := ∀ u ∈ before, _)]

theorem view_of_composite {v : Value C t} (h : C.category t = .composite) :
    v.view = .composite (v.handed.map (·.2.view)) := by
  rw [handed_view]
  exact eq_composite (v.view_category.trans h)

theorem view_of_union {v : Value C t} (h : C.category t = .taggedUnion) :
    ∃ d f, v.handed = [f] ∧ v.view = .union d f.2.view := by
  obtain ⟨d, payload, seen⟩ := eq_union (v.view_category.trans h)
  have shown : v.handed.map (·.2.view) = [payload] := by
    rw [handed_view, seen]
    rfl
  obtain ⟨f, handed, rfl⟩ := List.map_eq_singleton_iff.mp shown
  exact ⟨d, f, handed, seen⟩

/-- Under a limit one higher, a composite has a byte form as soon as all that it hands over has one;
its form is theirs in a row, and its failure is the first of theirs. -/
theorem toBytesWith_composite {v : Value C t} (composite : C.category t = .composite) :
    ((∃ bytes, v.toBytesWith { maxDepth := limit + 1 } = .ok bytes) ↔
      ∀ f ∈ v.handed, ∃ bytes, f.2.toBytesWith { maxDepth := limit } = .ok bytes) ∧
    (∀ forms, FormsOf limit v.handed forms →
      v.toBytesWith { maxDepth := limit + 1 } = .ok forms.flatten) ∧
    ∀ e, FirstFails limit v.handed e →
      v.toBytesWith { maxDepth := limit + 1 } = .error e.raised := by
  have seen := view_of_composite (v := v) composite
  have fault : fault? (limit + 1) 0 v.view =
      (faultAll? limit 0 (v.handed.map (·.2.view))).map EncodeError.raised := by
    rw [seen]
    exact fault?_composite_raised _
  refine ⟨?_, ?_, ?_⟩
  · rw [exists_toBytesWith_iff, fault, Option.map_eq_none_iff, faultAll?_eq_none_iff,
      List.forall_mem_map]
    simp only [exists_toBytesWith_iff]
  · intro forms each
    obtain ⟨sound, rfl⟩ := formsOf_iff.mp each
    have spelled : v.view.layout = (v.handed.map (·.2.view.layout)).flatten := by
      rw [seen, layout, layoutAll_eq_flatMap, List.flatMap_map, List.flatMap_def]
    rw [← spelled]
    exact toBytesWith_eq_ok_iff.mpr ⟨by rw [fault, sound]; rfl, rfl⟩
  · intro e first
    have failed := firstFails_iff.mp first
    apply toBytes_eq_error_iff.mpr
    rw [fault, failed]
    rfl

/-- Under a limit one higher, a union whose discriminant fits a tag is written as its tag and what
its payload is written as, and fails as that does. -/
theorem toBytesWith_union {v : Value C t} {d : Nat} {f : AnyValue C}
    (seen : v.view = .union d f.2.view) (low : d ≤ maxDiscriminant) :
    (∀ bytes, f.2.toBytesWith { maxDepth := limit } = .ok bytes →
      v.toBytesWith { maxDepth := limit + 1 } = .ok (UInt8.ofNat d :: bytes)) ∧
    ∀ e, f.2.toBytesWith { maxDepth := limit } = .error e →
      v.toBytesWith { maxDepth := limit + 1 } = .error e.raised := by
  have fault : fault? (limit + 1) 0 v.view =
      (fault? limit 0 f.2.view).map EncodeError.raised := by
    rw [seen]
    exact fault?_union_raised low _
  refine ⟨?_, ?_⟩
  · intro bytes written
    obtain ⟨sound, rfl⟩ := toBytesWith_eq_ok_iff.mp written
    apply toBytesWith_eq_ok_iff.mpr
    rw [fault, sound, seen]
    exact ⟨rfl, rfl⟩
  · intro e failed
    apply toBytes_eq_error_iff.mpr
    rw [fault, toBytes_eq_error_iff.mp failed]
    rfl

/-- A visitor is handed the very pieces that writing and printing put out. A composite is written
as what it hands over, one piece after another as each is by itself under a limit one lower, and
fails as the first of them to fail; it is printed as they are, between braces. A union is written
as its tag, if that is a byte, and then as the payload that it hands over, and printed so too. -/
theorem composed_of_handed (C : Catalogue) :
    (∀ {t : Ty C.Name} (v : Value C t), v.handed.map (·.2.view) = v.view.children) ∧
    (∀ {t : Ty C.Name} (v : Value C t), C.category t = .composite →
      (∀ limit : Nat,
        ((∃ bytes, v.toBytesWith { maxDepth := limit + 1 } = .ok bytes) ↔
          ∀ f ∈ v.handed, ∃ bytes, f.2.toBytesWith { maxDepth := limit } = .ok bytes) ∧
        (∀ forms, FormsOf limit v.handed forms →
          v.toBytesWith { maxDepth := limit + 1 } = .ok forms.flatten) ∧
        ∀ e, FirstFails limit v.handed e →
          v.toBytesWith { maxDepth := limit + 1 } = .error e.raised) ∧
      v.trace = "\x7b " ++ String.join (v.handed.map (·.2.trace)) ++ "\x7d ") ∧
    ∀ {t : Ty C.Name} (v : Value C t), C.category t = .taggedUnion →
      ∃ d f, v.view.discriminant? = some d ∧ v.handed = [f] ∧
        v.trace = "#" ++ toString d ++ " " ++ f.2.trace ∧
        (d ≤ maxDiscriminant → ∀ limit : Nat,
          (∀ bytes, f.2.toBytesWith { maxDepth := limit } = .ok bytes →
            v.toBytesWith { maxDepth := limit + 1 } = .ok (UInt8.ofNat d :: bytes)) ∧
          ∀ e, f.2.toBytesWith { maxDepth := limit } = .error e →
            v.toBytesWith { maxDepth := limit + 1 } = .error e.raised) := by
  refine ⟨fun v => handed_view v, ?_, ?_⟩
  · intro t v composite
    refine ⟨fun limit => toBytesWith_composite composite, ?_⟩
    rw [trace, view_of_composite composite, trace_composite, List.map_map]
    rfl
  · intro t v union
    obtain ⟨d, f, handed, seen⟩ := view_of_union (v := v) union
    refine ⟨d, f, by rw [seen]; rfl, handed, ?_, fun low limit => toBytesWith_union seen low⟩
    rw [trace, seen, trace_union]
    rfl

/-- Of two texts that are too long only the one that is handed over stops the writing; a body behind
its flag is printed between the braces; and the level that a present nothing takes is missed under
one, as it is by itself under none. -/
theorem composed_of_handed_sample :
    let long := String.ofList (List.replicate 256 'x')
    let cond := Sample.cond true [7, 513]
    let nothing : Value sample (.option .unit) := .present .unit
    (sample.category (.named .masked) = .composite ∧
      (Sample.masked 5 long long).toBytesWith { maxDepth := 1 } =
        .error (.lengthExceedsLimit "text" 256 255)) ∧
    (cond.toBytesWith { maxDepth := 2 } = .ok [1, 2, 7, 0, 1, 2] ∧
      cond.trace = "\x7b " ++ String.join ["1 ", "[ 7 513 ] "] ++ "\x7d ") ∧
    (sample.category (.option .unit) = .taggedUnion ∧
      nothing.toBytesWith { maxDepth := 1 } = .error (.depthExceeded 1)) := by
  intro long cond nothing
  obtain ⟨-, composites, unions⟩ := composed_of_handed sample
  refine ⟨⟨rfl, ?_⟩, ⟨?_, ?_⟩, rfl, ?_⟩
  · have number : ∃ bytes, toBytesWith (C := sample) { maxDepth := 0 }
        (.number (.unsigned .two) 5) = .ok bytes := ⟨[5, 0], rfl⟩
    have size : long.utf8ByteSize = 256 := by decide +kernel
    have fault : fault? 0 0 (.text long) = some (.lengthExceedsLimit "text" 256 255) := by
      rw [fault?, size]
      rfl
    have first : FirstFails 0 (Sample.masked 5 long long).handed
        (.lengthExceedsLimit "text" 256 255) :=
      ⟨[_], ⟨_, .text long⟩, [], rfl, List.forall_mem_singleton.mpr number,
        toBytes_eq_error_iff.mpr fault⟩
    obtain ⟨-, -, fails⟩ := (composites (Sample.masked 5 long long) rfl).1 0
    exact fails _ first
  · have each : FormsOf 1 cond.handed [[1], [2, 7, 0, 1, 2]] := rfl
    obtain ⟨-, written, -⟩ := (composites cond rfl).1 1
    exact written _ each
  · exact (composites cond rfl).2
  · obtain ⟨d, f, said, handed, -, written⟩ := unions nothing rfl
    obtain rfl : 1 = d := Option.some.inj said
    obtain rfl : ⟨_, .unit⟩ = f := (List.cons.inj handed).1
    exact (written (by decide) 0).2 _ rfl

end Data

end FlatCodec
