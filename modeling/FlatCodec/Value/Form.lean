import FlatCodec.Item.Layout
import FlatCodec.Value.View

namespace FlatCodec

namespace Part

variable {ν : Type}

def layout : {p : Part ν} → p.View → List UInt8
  | .one _, i => i.layout
  | .many _, is => Item.layoutAll is
  | .fields _, is => Item.layoutAll is
  | .body _, i => i.layout

def depth : {p : Part ν} → p.View → Nat
  | .one _, i => i.depth
  | .many _, is => Item.depthAll is
  | .fields _, is => Item.depthAll is
  | .body _, i => i.depth

def Fits : {p : Part ν} → p.View → Prop
  | .one _, i => i.Fits
  | .many _, is => ∀ i ∈ is, i.Fits
  | .fields _, is => ∀ i ∈ is, i.Fits
  | .body _, i => i.Fits

end Part

namespace Data

variable {C : Catalogue}

/-- How many elements there are in a row; a part that is no row has none. -/
def count : {p : Part C.Name} → Data C p → Nat
  | _, cons _ tail => tail.count + 1
  | _, _ => 0

theorem length_view {t : Ty C.Name} (vs : Elements C t) : vs.view.length = vs.count := by
  cases vs with
  | nil => rfl
  | cons v vs => exact congrArg (· + 1) (length_view vs)

/-- How many levels a value takes: one for each sequence, union and composite around another, two
for an absent option, none for a box or a name. -/
def depth : {p : Part C.Name} → Data C p → Nat
  | _, number .. => 0
  | _, bool _ => 0
  | _, text _ => 0
  | _, unit => 1
  | _, seq elements => elements.depth + 1
  | _, box content => content.depth
  | _, absent => 2
  | _, present content => content.depth + 1
  | _, oneOf _ payload => payload.depth + 1
  | _, named content => content.depth
  | _, nil => 0
  | _, cons head tail => max head.depth tail.depth
  | _, done => 0
  | _, visited value rest => max value.depth rest.depth
  | _, hidden _ rest => rest.depth
  | _, flagged true value rest => max value.depth rest.depth
  | _, flagged false _ rest => rest.depth
  | _, record fields => fields.depth + 1
  | _, union _ payload => payload.depth + 1
  | _, uniform _ payload => payload.depth + 1

/-- A visitor is shown as many levels as there are. -/
theorem depth_view {p : Part C.Name} (v : Data C p) : Part.depth v.view = v.depth := by
  induction v with
  | number k bits => rfl
  | bool b => rfl
  | text s => rfl
  | unit => rfl
  | seq vs ih => exact (Nat.add_comm 1 _).trans (congrArg (· + 1) ih)
  | box v ih => exact ih
  | absent => rfl
  | present v ih => exact (Nat.add_comm 1 _).trans (congrArg (· + 1) ih)
  | oneOf i v ih => exact (Nat.add_comm 1 _).trans (congrArg (· + 1) ih)
  | named v ih => exact ih
  | nil => rfl
  | cons v vs hv hvs =>
    rw [depth, ← hv, ← hvs]
    rfl
  | done => rfl
  | visited v vs hv hvs =>
    rw [depth, ← hv, ← hvs]
    rfl
  | hidden v vs hv hvs => exact hvs
  | flagged b v vs hv hvs =>
    cases b with
    | true =>
      rw [depth, ← hv, ← hvs]
      exact Nat.zero_max _
    | false => exact (Nat.zero_max _).trans hvs
  | record vs ih => exact (Nat.add_comm 1 _).trans (congrArg (· + 1) ih)
  | union i v ih => exact (Nat.add_comm 1 _).trans (congrArg (· + 1) ih)
  | uniform i v ih => exact (Nat.add_comm 1 _).trans (congrArg (· + 1) ih)

/-- Every visited text and sequence can be counted in a byte, and every visited union holds an
index that a byte can name. -/
def Fits : {p : Part C.Name} → Data C p → Prop
  | _, number .. => True
  | _, bool _ => True
  | _, text s => s.utf8ByteSize ≤ maxCount
  | _, unit => True
  | _, seq elements => elements.count ≤ maxCount ∧ elements.Fits
  | _, box content => content.Fits
  | _, absent => True
  | _, present content => content.Fits
  | _, oneOf i payload => i.val ≤ maxDiscriminant ∧ payload.Fits
  | _, named content => content.Fits
  | _, nil => True
  | _, cons head tail => head.Fits ∧ tail.Fits
  | _, done => True
  | _, visited value rest => value.Fits ∧ rest.Fits
  | _, hidden _ rest => rest.Fits
  | _, flagged true value rest => value.Fits ∧ rest.Fits
  | _, flagged false _ rest => rest.Fits
  | _, record fields => fields.Fits
  | _, union i payload => i.val ≤ maxDiscriminant ∧ payload.Fits
  | _, uniform index payload => index ≤ maxDiscriminant ∧ payload.Fits

/-- What a visitor is shown fits its bytes exactly where what is visited does. -/
theorem fits_view {p : Part C.Name} (v : Data C p) : Part.Fits v.view ↔ v.Fits := by
  induction v with
  | number k bits => simp [view, Part.Fits, Fits]
  | bool b => simp [view, Part.Fits, Fits]
  | text s => exact Item.fits_text_iff s
  | unit => simp [view, Part.Fits, Fits]
  | seq vs ih =>
    rw [view, Part.Fits, Item.fits_sequence_iff, length_view, Fits, ← ih, Part.Fits]
  | box v ih => exact ih
  | absent => simp [view, Part.Fits, Fits]
  | present v ih =>
    rw [view, Part.Fits, Item.fits_union_iff, Fits, ← ih, Part.Fits]
    exact and_iff_right (by decide)
  | oneOf i v ih => exact (Item.fits_union_iff _ _).trans (and_congr_right' ih)
  | named v ih => exact ih
  | nil => simp [view, Part.Fits, Fits]
  | cons v vs hv hvs => exact List.forall_mem_cons.trans (and_congr hv hvs)
  | done => simp [view, Part.Fits, Fits]
  | visited v vs hv hvs => exact List.forall_mem_cons.trans (and_congr hv hvs)
  | hidden v vs hv hvs => exact hvs
  | flagged b v vs hv hvs =>
    have flag : (Item.bool b).Fits := .bool b
    cases b with
    | true =>
      refine List.forall_mem_cons.trans ((and_iff_right flag).trans ?_)
      exact List.forall_mem_cons.trans (and_congr hv hvs)
    | false => exact List.forall_mem_cons.trans ((and_iff_right flag).trans hvs)
  | record vs ih => exact (Item.fits_composite_iff _).trans ih
  | union i v ih => exact (Item.fits_union_iff _ _).trans (and_congr_right' ih)
  | uniform i v ih => exact (Item.fits_union_iff _ _).trans (and_congr_right' ih)

/-- The byte strings that stand for a part, rule by rule: numbers over their width with the lowest
byte first, truth values as 0 and 1, texts and sequences behind a count, unions behind a tag, and
what is visited of a record in the order of its fields. A count or tag is a byte whose own value is
the count or the index, so what does not fit a byte has no form. -/
inductive SpelledBy : {p : Part C.Name} → Data C p → List UInt8 → Prop where
  | number {k bits bytes} (width : bytes.length = k.bytes)
      (value : ofLittleEndian bytes = bits.toNat) : SpelledBy (.number k bits) bytes
  | no : SpelledBy (.bool false) [0]
  | yes : SpelledBy (.bool true) [1]
  | text {s size} (counted : size.toNat = s.utf8ByteSize) :
      SpelledBy (.text s) (size :: utf8Bytes s)
  | unit : SpelledBy .unit []
  | seq {t} {elements : Elements C t} {size bytes} (counted : size.toNat = elements.count)
      (each : SpelledBy elements bytes) : SpelledBy (.seq elements) (size :: bytes)
  | box {t} {content : Value C t} {bytes} (inner : SpelledBy content bytes) :
      SpelledBy (.box content) bytes
  | absent {t} : SpelledBy (@absent C t) [0]
  | present {t} {content : Value C t} {bytes} (inner : SpelledBy content bytes) :
      SpelledBy (.present content) (1 :: bytes)
  | oneOf {k alternatives i} {payload : Value C (alternatives i)} {tag bytes}
      (named : tag.toNat = i.val) (inner : SpelledBy payload bytes) :
      SpelledBy (@oneOf C k alternatives i payload) (tag :: bytes)
  | named {n} {content : Data C (.body (C.decl n))} {bytes} (inner : SpelledBy content bytes) :
      SpelledBy (.named content) bytes
  | nil {t} : SpelledBy (@nil C t) []
  | cons {t} {first : Value C t} {others : Elements C t} {bytes rest}
      (head : SpelledBy first bytes) (tail : SpelledBy others rest) :
      SpelledBy (.cons first others) (bytes ++ rest)
  | done : SpelledBy .done []
  | visited {t fs} {value : Value C t} {others : Data C (.fields fs)} {bytes rest}
      (head : SpelledBy value bytes) (tail : SpelledBy others rest) :
      SpelledBy (.visited value others) (bytes ++ rest)
  | hidden {t fs} {value : Value C t} {others : Data C (.fields fs)} {rest}
      (tail : SpelledBy others rest) : SpelledBy (.hidden value others) rest
  | set {t fs} {value : Value C t} {others : Data C (.fields fs)} {bytes rest}
      (head : SpelledBy value bytes) (tail : SpelledBy others rest) :
      SpelledBy (.flagged true value others) (1 :: (bytes ++ rest))
  | unset {t fs} {value : Value C t} {others : Data C (.fields fs)} {rest}
      (tail : SpelledBy others rest) : SpelledBy (.flagged false value others) (0 :: rest)
  | record {fs} {fields : Data C (.fields fs)} {bytes} (inner : SpelledBy fields bytes) :
      SpelledBy (.record fields) bytes
  | union {k alternatives i} {payload : Value C (alternatives i)} {tag bytes}
      (named : tag.toNat = i.val) (inner : SpelledBy payload bytes) :
      SpelledBy (@union C k alternatives i payload) (tag :: bytes)
  | uniform {n t index} {payload : Value C t} {tag bytes} (named : tag.toNat = index)
      (inner : SpelledBy payload bytes) :
      SpelledBy (@uniform C n t index payload) (tag :: bytes)

end Data

end FlatCodec
