import FlatCodec.Proofs.Alternative
import FlatCodec.Proofs.Refresh
import FlatCodec.Proofs.Span

namespace FlatCodec

open Reader

namespace Data

variable {C : Catalogue} {limit room : Nat} {inner : Slots C}

/-- Where every field is visited, nothing that the slot held is kept. -/
theorem merge_eq_of_allVisited {p : Part C.Name} (slot v : Data C p) (all : C.AllVisited p) :
    slot.merge v = v := by
  induction v with
  | number k bits => cases slot; rfl
  | bool b => cases slot; rfl
  | text s => cases slot; rfl
  | unit => cases slot; rfl
  | seq vs ih =>
    cases slot with
    | seq slots => exact congrArg Data.seq (ih slots fun f fs h => all f fs (.elements h))
  | box v ih =>
    cases slot with
    | box slot => exact congrArg Data.box (ih slot fun f fs h => all f fs (.boxed h))
  | absent => exact merge_absent slot
  | present v ih => exact merge_present slot v
  | oneOf i v ih => exact merge_oneOf slot i v
  | named v ih =>
    cases slot with
    | named slot => exact congrArg Data.named (ih slot fun f fs h => all f fs (.declared h))
  | nil => cases slot <;> rfl
  | cons v vs hv hvs =>
    cases slot with
    | nil => rfl
    | cons slot slots =>
      exact congrArg₂ Data.cons (hv slot fun f fs h => all f fs (.element h)) (hvs slots all)
  | done => cases slot; rfl
  | visited v vs hv hvs =>
    cases slot with
    | visited slot slots =>
      exact congrArg₂ Data.visited (hv slot fun f fs h => all f fs (.first h))
        (hvs slots fun f fs h => all f fs (.later h))
  | hidden v vs hv hvs =>
    obtain ⟨t, h⟩ := all _ _ .here
    cases h
  | flagged b v vs hv hvs =>
    obtain ⟨t, h⟩ := all _ _ .here
    cases h
  | record vs ih =>
    cases slot with
    | record slots => exact congrArg Data.record (ih slots fun f fs h => all f fs (.record h))
  | union i v ih => exact merge_union slot i v
  | uniform i v ih => exact merge_uniform slot i v

/-- What is read into a used slot is what is read into an initial one, merged into what the slot
held. The verdict and the place are the same then. -/
def Reuses (inner : Slots C) : Prop :=
  ∀ (t : Ty C.Name) (slot : Value C t), inner t slot = slot.merge <$> inner t (initial t)

theorem readElements_reuses (reuses : Reuses inner) {t : Ty C.Name} (n : Nat)
    (slots : Elements C t) :
    readElements inner n slots = slots.merge <$> readElements inner n .nil := by
  induction n generalizing slots with
  | zero => cases slots <;> simp [readElements, merge]
  | succ n ih =>
    cases slots with
    | nil =>
      have untouched : merge (Data.nil : Elements C t) = id := rfl
      rw [untouched, id_map]
    | cons slot slots =>
      simp only [readElements, reuses t slot, ih slots, map_bind, bind_map_left, map_pure]
      rfl

theorem readFields_reuses (reuses : Reuses inner) {fs : List (Field C.Name)}
    (slots : Data C (.fields fs)) :
    readFields inner fs slots = slots.merge <$> readFields inner fs (initialFields fs) := by
  induction fs with
  | nil =>
    cases slots
    simp [readFields, initialFields, merge]
  | cons f fs ih =>
    cases slots with
    | visited slot slots =>
      simp only [readFields, initialFields, reuses _ slot, ih slots, map_bind, bind_map_left,
        map_pure]
      rfl
    | hidden slot slots =>
      simp only [readFields, initialFields, ih slots, map_bind, bind_map_left, map_pure]
      rfl
    | flagged flag slot slots =>
      -- The flag that decides over the body is the one just read, whatever the slot's was.
      simp only [readFields, initialFields, map_bind]
      refine bind_congr fun said => ?_
      cases said with
      | true =>
        simp only [if_true, reuses _ slot, ih slots, map_bind, bind_map_left, map_pure]
        rfl
      | false =>
        simp only [Bool.false_eq_true, if_false, ih slots, map_bind, bind_map_left, map_pure]
        rfl

/-- Where merging takes nothing over from the slot, as at every union, there is nothing to add. -/
private theorem unmerged {p : Part C.Name} {slot : Data C p} (x : Reading (Data C p))
    (replaced : ∀ v, slot.merge v = v) : x = slot.merge <$> x := by
  have untouched : slot.merge = id := funext replaced
  rw [untouched, id_map]

theorem readBody_reuses (deeper : FurtherIn limit room (Reuses (C := C))) {d : Decl C.Name}
    (slot : Data C (.body d)) :
    (readBody limit (furtherIn limit room) d slot : Reading _) =
      slot.merge <$> readBody limit (furtherIn limit room) d (initialBody d) := by
  cases d with
  | record fs =>
    cases slot with
    | record slots =>
      simp only [readBody, initialBody, nested_map]
      refine nested_congr fun n left => ?_
      simp only [readFields_reuses (deeper n left) slots, map_bind, bind_map_left, map_pure]
      rfl
  | union k alternatives =>
    refine unmerged _ fun v => ?_
    cases v with
    | union i v => exact merge_union slot i v
  | uniform k t =>
    refine unmerged _ fun v => ?_
    cases v with
    | uniform i v => exact merge_uniform slot i v

theorem readOne_reuses (deeper : FurtherIn limit room (Reuses (C := C))) :
    Reuses (readOne (C := C) limit (furtherIn limit room)) := by
  intro t slot
  induction t with
  | number k =>
    refine unmerged _ fun v => ?_
    cases slot
    rfl
  | bool =>
    refine unmerged _ fun v => ?_
    cases slot
    rfl
  | text =>
    refine unmerged _ fun v => ?_
    cases slot
    rfl
  | unit =>
    refine unmerged _ fun v => ?_
    cases slot
    rfl
  | seq t =>
    cases slot with
    | seq slots =>
      have empty : initial (.seq t) = .seq (.nil : Elements C t) := rfl
      simp only [readOne, empty, nested_map, map_bind]
      refine bind_congr fun len => nested_congr fun n left => ?_
      simp only [readElements_reuses (deeper n left) len slots, bind_map_left, map_pure]
      rfl
  | box t ih =>
    cases slot with
    | box slot =>
      simp only [readOne, initial_box, ih slot, map_bind, bind_map_left, map_pure]
      rfl
  | option t =>
    refine unmerged _ fun v => ?_
    cases v with
    | absent => exact merge_absent slot
    | present v => exact merge_present slot v
  | oneOf k alternatives =>
    refine unmerged _ fun v => ?_
    cases v with
    | oneOf i v => exact merge_oneOf slot i v
  | named n =>
    cases slot with
    | named slot =>
      simp only [readOne, initial_named, readBody_reuses deeper slot, map_bind, bind_map_left,
        map_pure]
      rfl

theorem readWithin_reuses (limit room : Nat) : Reuses (readWithin (C := C) limit room) :=
  readWithin_induction (fun _ deeper => readOne_reuses deeper) room

theorem readInto_reuses (limit : Nat) {t : Ty C.Name} (slot : Value C t) :
    readInto limit slot = slot.merge <$> read limit t := by
  rw [read, readInto_eq, readInto_eq]
  exact readWithin_reuses limit limit t slot

/-- The verdict, the value and the place of a reading into a used slot. -/
theorem readInto_run (limit : Nat) {t : Ty C.Name} (slot : Value C t) (r : Reader) :
    readInto limit slot r =
      match read limit t r with
      | .ok v r' => .ok (slot.merge v) r'
      | .error e r' => .error e r' := by
  rw [readInto_reuses, map_apply]
  cases read limit t r <;> rfl

theorem fromBytesIntoWith_reuses (options : DecodeOptions) {t : Ty C.Name} (slot : Value C t)
    (bytes : List UInt8) :
    fromBytesIntoWith options slot bytes = (fromBytesWith t options bytes).map slot.merge :=
  fromBytesIntoWith_map (readInto_reuses options.maxDepth slot) bytes

/-- Elements are merged place by place as far as there are slots for them, and those beyond the
last slot come as they are. The count is that of the elements, not of the slots. -/
theorem merge_ofList {t : Ty C.Name} (slots vs : List (Value C t)) :
    (ofList slots).merge (ofList vs) =
      ofList (List.zipWith merge slots vs ++ vs.drop slots.length) := by
  induction slots generalizing vs with
  | nil => rfl
  | cons slot slots ih =>
    cases vs with
    | nil => rfl
    | cons v vs => exact congrArg (Data.cons (slot.merge v)) (ih vs)

/-- Decoding into a used slot comes out as decoding afresh does: there is the same error, or there
is a value and the slot ends as that value merged into what it held, and the reading stops at the
same place. Where all places are visited, the slot has no part in it. -/
theorem fromBytesInto_used_slot {t : Ty C.Name} (slot : Value C t) :
    (∀ (limit : Nat) (r : Reader),
      readInto limit slot r =
        match read limit t r with
        | .ok v r' => .ok (slot.merge v) r'
        | .error e r' => .error e r') ∧
    (∀ (options : DecodeOptions) (bytes : List UInt8),
      fromBytesIntoWith options slot bytes = (fromBytesWith t options bytes).map slot.merge) ∧
    (C.AllVisited (.one t) → ∀ (options : DecodeOptions) (bytes : List UInt8),
      fromBytesIntoWith options slot bytes = fromBytesWith t options bytes) := by
  refine ⟨fun limit r => readInto_run limit slot r, ?_, ?_⟩
  · intro options bytes
    exact fromBytesIntoWith_reuses options slot bytes
  · intro all options bytes
    have untouched : slot.merge = id := funext fun v => merge_eq_of_allVisited slot v all
    rw [fromBytesIntoWith_reuses, untouched]
    cases fromBytesWith t options bytes <;> rfl

end Data

namespace Sample

@[simp] theorem masked_merge (number number' : BitVec 16) (hidden hidden' shown shown' : String) :
    (masked number hidden shown).merge (masked number' hidden' shown') =
      masked number' hidden shown' := rfl

/-- A body that is read takes the place of the old one as a whole, since its numbers are visited. -/
@[simp] theorem cond_merge (flag flag' : Bool) (body body' : List (BitVec 16)) :
    (cond flag body).merge (cond flag' body') = cond flag' (if flag' then body' else body) := by
  cases flag' with
  | false => rfl
  | true =>
    have numbers : sample.AllVisited (.one (.seq uint16)) := (Catalogue.allVisited_number _).seq
    have body_replaced := Data.merge_eq_of_allVisited (C := sample) (p := .one (.seq uint16))
      (.seq (.ofList (body.map (.number _)))) (.seq (.ofList (body'.map (.number _)))) numbers
    let closed (content : Value sample (.seq uint16)) : Value sample (.named .cond) :=
      .named (.record (.flagged true content .done))
    exact congrArg closed body_replaced

end Sample

namespace Data

/-- Of three slots the first keeps its body behind an unset flag and the last is dropped, and a
wrong flag is wrong in any slot; a payload keeps nothing of the old one; and a slot of truth values
is overwritten. -/
theorem fromBytesInto_used_slot_sample :
    (fromBytesIntoWith {} (.seq (.ofList
        [Sample.cond true [7], Sample.cond true [8], Sample.cond true [9]])) [2, 0, 1, 1, 5, 0] =
      .ok (.seq (.ofList [Sample.cond false [7], Sample.cond true [5]])) ∧
    readInto 3 (.seq (.ofList [Sample.cond true [7]])) (ofBytes [2, 0, 2, 1]) =
      .error (.invalidBool 2) ⟨3, [1]⟩) ∧
    fromBytesIntoWith {} (.present (Sample.masked 1 "old" "x")) [1, 5, 0, 0] =
      .ok (.present (Sample.masked 5 "" "")) ∧
    fromBytesIntoWith (C := sample) {} (.seq (.ofList [.bool false, .bool false])) [1, 1] =
      .ok (.seq (.ofList [.bool true])) := by
  refine ⟨⟨?_, ?_⟩, ?_, ?_⟩
  · have afresh : fromBytesWith (C := sample) (.seq (.named .cond)) {} [2, 0, 1, 1, 5, 0] =
        .ok (.seq (.ofList [Sample.cond false [], Sample.cond true [5]])) := rfl
    obtain ⟨-, decodings, -⟩ := fromBytesInto_used_slot (C := sample) (.seq (.ofList
      [Sample.cond true [7], Sample.cond true [8], Sample.cond true [9]]))
    rw [decodings, afresh]
    rfl
  · have afresh : read (C := sample) 3 (.seq (.named .cond)) (ofBytes [2, 0, 2, 1]) =
        .error (.invalidBool 2) ⟨3, [1]⟩ := rfl
    obtain ⟨readings, -, -⟩ := fromBytesInto_used_slot (C := sample) (.seq (.ofList
      [Sample.cond true [7]]))
    rw [readings, afresh]
  · have afresh : fromBytesWith (C := sample) (.option (.named .masked)) {} [1, 5, 0, 0] =
        .ok (.present (Sample.masked 5 "" "")) := rfl
    obtain ⟨-, decodings, -⟩ := fromBytesInto_used_slot (C := sample)
      (.present (Sample.masked 1 "old" "x"))
    rw [decodings, afresh]
    rfl
  · have truth_values : sample.AllVisited (.one (.seq .bool)) := Catalogue.allVisited_bool.seq
    obtain ⟨-, -, replaced⟩ := fromBytesInto_used_slot (C := sample) (.seq (.ofList
      [.bool false, .bool false]))
    exact replaced truth_values {} [1, 1]

end Data

end FlatCodec
