import FlatCodec.Encoder
import FlatCodec.Proofs.Emission
import FlatCodec.Proofs.Occurrence
import FlatCodec.Value.Form

namespace FlatCodec

namespace Item

variable {limit opened : Nat}

private theorem faultAll?_eq_none_iff_fits {items : List Item} (reached : opened ≤ limit)
    (each : ∀ i ∈ items, (fault? limit opened i = none ↔ i.Fits ∧ opened + i.depth ≤ limit)) :
    faultAll? limit opened items = none ↔
      (∀ i ∈ items, i.Fits) ∧ opened + depthAll items ≤ limit := by
  have deep : opened + depthAll items ≤ limit ↔ ∀ i ∈ items, opened + i.depth ≤ limit := by
    have h := depthAll_le_iff items (limit - opened)
    simp only [Nat.le_sub_iff_add_le' reached] at h
    exact h
  rw [faultAll?_eq_none_iff, deep]
  refine ⟨?_, ?_⟩
  · intro none
    have both (i : Item) (hi : i ∈ items) := (each i hi).mp (none i hi)
    exact ⟨fun i hi => (both i hi).1, fun i hi => (both i hi).2⟩
  · intro h i hi
    obtain ⟨fits, all⟩ := h
    exact (each i hi).mpr ⟨fits i hi, all i hi⟩

/-- Nothing is wrong with an item exactly when its counts and discriminants fit their bytes and
its levels fit among those still free. -/
theorem fault?_eq_none_iff {i : Item} (reached : opened ≤ limit) :
    fault? limit opened i = none ↔ i.Fits ∧ opened + i.depth ≤ limit := by
  induction i generalizing opened with
  | number k bits => simp [fault?, depth, reached]
  | bool b => simp [fault?, depth, reached]
  | text s => simp [fault?_text_eq_none_iff, depth, reached]
  | sequence elements ih =>
    rw [fault?_sequence_eq_none_iff, fits_sequence_iff, depth]
    by_cases room : opened < limit
    · rw [faultAll?_eq_none_iff_fits room fun i hi => ih i hi room]
      simp [room, and_assoc, Nat.add_assoc]
    · have h : ¬ opened + (1 + depthAll elements) ≤ limit := by omega
      simp [room, h]
  | union d payload ih =>
    rw [fault?_union_eq_none_iff, fits_union_iff, depth]
    by_cases room : opened < limit
    · rw [ih room]
      simp [room, and_assoc, Nat.add_assoc]
    · have h : ¬ opened + (1 + payload.depth) ≤ limit := by omega
      simp [room, h]
  | composite fields ih =>
    rw [fault?_composite_eq_none_iff, fits_composite_iff, depth]
    by_cases room : opened < limit
    · rw [faultAll?_eq_none_iff_fits room fun i hi => ih i hi room]
      simp [room, Nat.add_assoc]
    · have h : ¬ opened + (1 + depthAll fields) ≤ limit := by omega
      simp [room, h]

/-- Where all counts and discriminants fit, only a level can be at fault. -/
theorem Fits.fault?_eq {i : Item} (fits : i.Fits) {e : EncodeError}
    (h : fault? limit opened i = some e) : e = .depthExceeded limit := by
  induction fits generalizing opened with
  | number k bits => simp [fault?] at h
  | bool b => simp [fault?] at h
  | text short => simp [fault?, Nat.not_lt.mpr short] at h
  | sequence short each ih =>
    rw [fault?, if_neg (Nat.not_lt.mpr short)] at h
    split at h
    · simpa using h.symm
    · rw [faultAll?_eq_findSome?] at h
      obtain ⟨i, hi, hf⟩ := List.exists_of_findSome?_eq_some h
      exact ih i hi hf
  | union low inner ih =>
    rw [fault?, if_neg (Nat.not_lt.mpr low)] at h
    split at h
    · simpa using h.symm
    · exact ih h
  | composite each ih =>
    rw [fault?] at h
    split at h
    · simpa using h.symm
    · rw [faultAll?_eq_findSome?] at h
      obtain ⟨i, hi, hf⟩ := List.exists_of_findSome?_eq_some h
      exact ih i hi hf

theorem Fits.fault?_of_too_deep {i : Item} (fits : i.Fits) (reached : opened ≤ limit)
    (deep : limit < opened + i.depth) : fault? limit opened i = some (.depthExceeded limit) := by
  have faulty : fault? limit opened i ≠ none := by
    rw [Ne, fault?_eq_none_iff reached]
    omega
  obtain ⟨e, fault⟩ := Option.ne_none_iff_exists'.mp faulty
  rw [fault, fits.fault?_eq fault]

theorem toBytes_eq_ok_iff {i : Item} {bytes : List UInt8} :
    i.toBytes limit = .ok bytes ↔ i.Fits ∧ i.depth ≤ limit ∧ bytes = i.layout := by
  rw [toBytes_eq, ← and_assoc]
  have h := fault?_eq_none_iff (i := i) (Nat.zero_le limit)
  rw [Nat.zero_add] at h
  rw [← h]
  cases fault? limit 0 i <;> simp [eq_comm]

end Item

namespace Data

variable {C : Catalogue} {t : Ty C.Name}

/-- A value that has a byte form keeps it under every greater limit. -/
theorem toBytesWith_of_le {v : Value C t} {options : EncodeOptions} {bytes : List UInt8}
    {limit : Nat} (within : options.maxDepth ≤ limit)
    (written : v.toBytesWith options = .ok bytes) :
    v.toBytesWith { maxDepth := limit } = .ok bytes := by
  obtain ⟨fits, shallow, spelled⟩ := Item.toBytes_eq_ok_iff.mp written
  exact Item.toBytes_eq_ok_iff.mpr ⟨fits, Nat.le_trans shallow within, spelled⟩

/-- The rules give a part no other form than the one that is written of what a visitor is shown, and
give that one only where everything fits. -/
theorem SpelledBy.fits_and_eq {p : Part C.Name} {v : Data C p} {bytes : List UInt8}
    (spelled : v.SpelledBy bytes) : v.Fits ∧ bytes = Part.layout v.view := by
  induction spelled with
  | @number k bits bytes width value =>
    refine ⟨trivial, ?_⟩
    rw [view, Part.layout, Item.layout, Number.toBytes, ← value, ← width,
      littleEndian_ofLittleEndian]
  | no => exact ⟨trivial, rfl⟩
  | yes => exact ⟨trivial, rfl⟩
  | text counted =>
    obtain ⟨short, rfl⟩ := byte_toNat_eq_iff.mp counted
    exact ⟨short, rfl⟩
  | unit => exact ⟨trivial, rfl⟩
  | seq counted _ ih =>
    obtain ⟨short, rfl⟩ := byte_toNat_eq_iff.mp counted
    obtain ⟨fits, rfl⟩ := ih
    refine ⟨⟨short, fits⟩, ?_⟩
    rw [view, Part.layout, Item.layout, length_view]
    rfl
  | box _ ih => exact ih
  | absent => exact ⟨trivial, rfl⟩
  | present _ ih =>
    obtain ⟨fits, rfl⟩ := ih
    exact ⟨fits, rfl⟩
  | oneOf named _ ih =>
    obtain ⟨low, rfl⟩ := byte_toNat_eq_iff.mp named
    obtain ⟨fits, rfl⟩ := ih
    exact ⟨⟨low, fits⟩, rfl⟩
  | named _ ih => exact ih
  | nil => exact ⟨trivial, rfl⟩
  | cons _ _ head tail =>
    obtain ⟨fits, rfl⟩ := head
    obtain ⟨all, rfl⟩ := tail
    exact ⟨⟨fits, all⟩, rfl⟩
  | done => exact ⟨trivial, rfl⟩
  | visited _ _ head tail =>
    obtain ⟨fits, rfl⟩ := head
    obtain ⟨all, rfl⟩ := tail
    exact ⟨⟨fits, all⟩, rfl⟩
  | hidden _ tail => exact tail
  | set _ _ head tail =>
    obtain ⟨fits, rfl⟩ := head
    obtain ⟨all, rfl⟩ := tail
    exact ⟨⟨fits, all⟩, rfl⟩
  | unset _ tail =>
    obtain ⟨all, rfl⟩ := tail
    exact ⟨all, rfl⟩
  | record _ ih => exact ih
  | union named _ ih =>
    obtain ⟨low, rfl⟩ := byte_toNat_eq_iff.mp named
    obtain ⟨fits, rfl⟩ := ih
    exact ⟨⟨low, fits⟩, rfl⟩
  | uniform named _ ih =>
    obtain ⟨low, rfl⟩ := byte_toNat_eq_iff.mp named
    obtain ⟨fits, rfl⟩ := ih
    exact ⟨⟨low, fits⟩, rfl⟩

/-- Where everything fits, what is written of a part is spelled by the rules. -/
theorem Fits.spelledBy {p : Part C.Name} {v : Data C p} (fits : v.Fits) :
    v.SpelledBy (Part.layout v.view) := by
  have said {n : Nat} (small : n ≤ 255) : (UInt8.ofNat n).toNat = n :=
    byte_toNat_eq_iff.mpr ⟨small, rfl⟩
  induction v with
  | number k bits =>
    exact .number (Number.toBytes_length k bits) (Number.ofLittleEndian_toBytes k bits)
  | bool b =>
    cases b with
    | false => exact .no
    | true => exact .yes
  | text s => exact .text (said fits)
  | unit => exact .unit
  | seq vs ih =>
    obtain ⟨short, all⟩ := fits
    rw [view, Part.layout, Item.layout, length_view]
    exact .seq (said short) (ih all)
  | box v ih => exact .box (ih fits)
  | absent => exact .absent
  | present v ih => exact .present (ih fits)
  | oneOf i v ih => exact .oneOf (said fits.1) (ih fits.2)
  | named v ih => exact .named (ih fits)
  | nil => exact .nil
  | cons v vs hv hvs => exact .cons (hv fits.1) (hvs fits.2)
  | done => exact .done
  | visited v vs hv hvs => exact .visited (hv fits.1) (hvs fits.2)
  | hidden v vs hv hvs => exact .hidden (hvs fits)
  | flagged b v vs hv hvs =>
    cases b with
    | false => exact .unset (hvs fits)
    | true =>
      have form := SpelledBy.set (hv fits.1) (hvs fits.2)
      exact form
  | record vs ih => exact .record (ih fits)
  | union i v ih => exact .union (said fits.1) (ih fits.2)
  | uniform i v ih => exact .uniform (said fits.1) (ih fits.2)

theorem spelledBy_iff {p : Part C.Name} {v : Data C p} {bytes : List UInt8} :
    v.SpelledBy bytes ↔ v.Fits ∧ bytes = Part.layout v.view := by
  refine ⟨SpelledBy.fits_and_eq, ?_⟩
  intro h
  obtain ⟨fits, rfl⟩ := h
  exact fits.spelledBy

theorem toBytesWith_eq_ok_iff_fits {options : EncodeOptions} {v : Value C t} {bytes : List UInt8} :
    v.toBytesWith options = .ok bytes ↔
      v.Fits ∧ v.depth ≤ options.maxDepth ∧ bytes = v.view.layout := by
  rw [← fits_view v, ← depth_view v]
  exact Item.toBytes_eq_ok_iff

/-- A value has a byte form exactly when every visited count and discriminant fits its byte and
its depth is within the limit, and the form is the one that the rules spell. -/
theorem toBytesWith_accepts (options : EncodeOptions) (v : Value C t) :
    ((∃ bytes, v.toBytesWith options = .ok bytes) ↔ v.Fits ∧ v.depth ≤ options.maxDepth) ∧
    ∀ bytes, v.toBytesWith options = .ok bytes ↔
      v.depth ≤ options.maxDepth ∧ v.SpelledBy bytes := by
  refine ⟨⟨?_, ?_⟩, ?_⟩
  · intro h
    obtain ⟨bytes, written⟩ := h
    obtain ⟨fits, shallow, -⟩ := toBytesWith_eq_ok_iff_fits.mp written
    exact ⟨fits, shallow⟩
  · intro h
    obtain ⟨fits, shallow⟩ := h
    exact ⟨v.view.layout, toBytesWith_eq_ok_iff_fits.mpr ⟨fits, shallow, rfl⟩⟩
  · intro bytes
    rw [spelledBy_iff, and_left_comm]
    exact toBytesWith_eq_ok_iff_fits

/-- An address takes eight bytes, a box none and an absent option two levels; of a record only what
is visited is written, so a hidden text may be too long, and a body too if its flag is not set.
Nothing is written of a text or a row of 256, nor of an index or a level too many. -/
theorem toBytesWith_accepts_sample :
    let long := String.ofList (List.replicate 256 'x')
    let entry : Ty Sample.Name := .oneOf4 Sample.address (.named .list) (.named .masked)
      (.named .cond)
    let link (i : BitVec 32) (next : Value sample (.option (.box (.named .list)))) :
        Value sample (.named .list) := .named (.record (.visited (.number _ i) (.visited next .done)))
    let entries : Value sample (.seq entry) := .seq (.ofList
      [.oneOf 0 (.number _ 258), .oneOf 1 (link (-2) (.present (.box (link 1 .absent)))),
        .oneOf 2 (Sample.masked 5 long "é"), .oneOf 3 (Sample.cond true [7]),
        .oneOf 3 (Sample.cond false (List.replicate 256 7))])
    (entries.toBytesWith { maxDepth := 7 } = .ok [5, 0, 2, 1, 0, 0, 0, 0, 0, 0,
        1, 254, 255, 255, 255, 1, 1, 0, 0, 0, 0, 2, 5, 0, 2, 195, 169, 3, 1, 1, 7, 0, 3, 0] ∧
      ¬ ∃ bytes, entries.toBytesWith { maxDepth := 6 } = .ok bytes) ∧
    (∀ options, ¬ ∃ bytes, toBytesWith (C := sample) options (.text long) = .ok bytes) ∧
    (∀ options, ¬ ∃ bytes,
      toBytesWith options (Sample.cond true (List.replicate 256 7)) = .ok bytes) ∧
    ∀ options, ¬ ∃ bytes, toBytesWith (C := sample) (t := .named .wide) options
      (.named (.uniform 256 (.number _ 7))) = .ok bytes := by
  intro long entry link entries
  have word (i : BitVec 32) (bytes : List UInt8) (width : bytes.length = 4)
      (value : ofLittleEndian bytes = i.toNat) :
      SpelledBy (C := sample) (.number (.signed .four) i) bytes := .number width value
  have short (i : BitVec 16) (bytes : List UInt8) (width : bytes.length = 2)
      (value : ofLittleEndian bytes = i.toNat) :
      SpelledBy (C := sample) (.number (.unsigned .two) i) bytes := .number width value
  refine ⟨⟨?_, ?_⟩, ?_, ?_, ?_⟩
  · have wide : SpelledBy (C := sample) (.number (.unsigned .word) 258)
        [2, 1, 0, 0, 0, 0, 0, 0] := .number rfl rfl
    have address : SpelledBy (.oneOf 0 (.number _ 258) : Value sample entry)
        [0, 2, 1, 0, 0, 0, 0, 0, 0] := .oneOf rfl wide
    have inner : (link 1 .absent).SpelledBy [1, 0, 0, 0, 0] :=
      .named (.record (.visited (word 1 [1, 0, 0, 0] rfl rfl) (.visited .absent .done)))
    have links : SpelledBy (.oneOf 1 (link (-2) (.present (.box (link 1 .absent)))) :
        Value sample entry) [1, 254, 255, 255, 255, 1, 1, 0, 0, 0, 0] :=
      .oneOf rfl (.named (.record (.visited (word (-2) [254, 255, 255, 255] rfl rfl)
        (.visited (.present (.box inner)) .done))))
    have masked : SpelledBy (.oneOf 2 (Sample.masked 5 long "é") : Value sample entry)
        [2, 5, 0, 2, 195, 169] :=
      .oneOf rfl (.named (.record (.visited (short 5 [5, 0] rfl rfl)
        (.hidden (.visited (.text rfl) .done)))))
    have set : SpelledBy (.oneOf 3 (Sample.cond true [7]) : Value sample entry)
        [3, 1, 1, 7, 0] :=
      .oneOf rfl (.named (.record (.set (.seq rfl (.cons (short 7 [7, 0] rfl rfl) .nil)) .done)))
    have unset : SpelledBy (.oneOf 3 (Sample.cond false (List.replicate 256 7)) :
        Value sample entry) [3, 0] := .oneOf rfl (.named (.record (.unset .done)))
    have row := SpelledBy.cons address (.cons links (.cons masked (.cons set (.cons unset .nil))))
    exact ((toBytesWith_accepts _ entries).2 _).mpr ⟨by decide, .seq rfl row⟩
  · rw [(toBytesWith_accepts _ entries).1]
    intro h
    exact absurd h.2 (by decide)
  · intro options
    rw [(toBytesWith_accepts _ _).1]
    intro h
    have counted : long.utf8ByteSize ≤ maxCount := h.1
    exact absurd counted (by decide +kernel)
  · intro options
    rw [(toBytesWith_accepts _ _).1]
    intro h
    exact absurd h.1.1.1 (by decide +kernel)
  · intro options
    rw [(toBytesWith_accepts _ _).1]
    intro h
    exact absurd h.1.1 (by decide)

end Data

end FlatCodec
