import FlatCodec.Proofs.Sequencing
import FlatCodec.Value.Read

namespace FlatCodec

/-- Readings put together from reads. A refusal that is not a failed read is a judgement, and so
it can only be about what has been read. -/
inductive Sequential : {α : Type} → Reading α → Prop where
  | answer {α} (a : α) : Sequential (pure a)
  | refuse {α} {e : DecodeError} (judged : e.group ≠ .outOfBounds) :
      Sequential (throw e : Reading α)
  | byte (context) : Sequential (Reader.readByte context)
  | bytes (n context) : Sequential (Reader.readBytes n context)
  | bind {α β} {x : Reading α} {f : α → Reading β} (first : Sequential x)
      (next : ∀ a, Sequential (f a)) : Sequential (x >>= f)

theorem Sequential.run {α : Type} (x : Read α) : Sequential x.run := by
  cases x with
  | byte context => exact .byte context
  | bytes n context => exact .bytes n context
  | array n context => exact .bytes n context

/-- A machine word can count what is asked for. -/
def Read.Countable {α : Type} : Read α → Prop
  | .byte _ => True
  | .bytes n _ => n < UInt64.size
  | .array n _ => n < UInt64.size

namespace Data

/-- Something holds of how values are read one level further in, when `room` levels are left. -/
def FurtherIn {C : Catalogue} (limit room : Nat) (holds : Slots C → Prop) : Prop :=
  ∀ n, room = n + 1 → holds (readWithin limit n)

/-- What holds of reading at a node as soon as it holds one level further in, holds with any number
of levels left. -/
theorem readWithin_induction {C : Catalogue} {limit : Nat} {holds : Slots C → Prop}
    (step : ∀ room, FurtherIn limit room holds → holds (readOne limit (furtherIn limit room)))
    (room : Nat) : holds (readWithin limit room) := by
  induction room with
  | zero =>
    apply step 0
    intro n left
    cases left
  | succ room ih =>
    apply step (room + 1)
    intro n left
    obtain rfl : room = n := by omega
    exact ih

end Data

theorem Number.bytes_countable (k : Number) : k.bytes < UInt64.size := by
  cases k with
  | unsigned s => cases s <;> decide
  | signed s => cases s <;> decide
  | float p => cases p <;> decide

section Related

variable {ε ε' σ τ : Type} [Cursor ε σ] [Cursor ε' τ]

/-- A relation between readings on two kinds of states that holds of two readings as soon as it
holds of what they are put together from, as long as no level is opened. -/
structure Congruent (R : (α : Type) → EStateM ε σ α → EStateM ε' τ α → Prop) : Prop where
  answer {α} (a : α) : R α (pure a) (pure a)
  refuse {α} {e : DecodeError} (judged : e.group ≠ .outOfBounds) :
    R α (Cursor.refuse e) (Cursor.refuse e)
  reading {α} {x : Read α} (countable : x.Countable) : R α (Cursor.reading x) (Cursor.reading x)
  bind {α β} {x : EStateM ε σ α} {y : EStateM ε' τ α} {f : α → EStateM ε σ β}
    {g : α → EStateM ε' τ β} (first : R α x y) (next : ∀ a, R β (f a) (g a)) :
    R β (x >>= f) (y >>= g)

section Scalars

variable {R : (α : Type) → EStateM ε σ α → EStateM ε' τ α → Prop}

theorem readByte_related (congruent : Congruent R) (context : String) :
    R _ (Cursor.reading (.byte context)) (Cursor.reading (.byte context)) :=
  congruent.reading trivial

theorem readCount_related (congruent : Congruent R) (context : String) :
    R _ (readCount context) (readCount context) :=
  congruent.bind (readByte_related congruent context) fun _ => congruent.answer _

theorem readNumber_related (congruent : Congruent R) (k : Number) :
    R _ (readNumber k) (readNumber k) :=
  congruent.bind (congruent.reading k.bytes_countable) fun _ => congruent.answer _

theorem readBool_related (congruent : Congruent R) : R _ readBool readBool := by
  refine congruent.bind (readByte_related congruent "bool") fun b => ?_
  split
  · exact congruent.answer false
  · exact congruent.answer true
  · exact congruent.refuse (by simp [DecodeError.group])

/-- A text is never longer than what a byte counts. -/
theorem readText_related (congruent : Congruent R) : R _ readText readText := by
  rw [readText, readText, readCount_bind, readCount_bind]
  refine congruent.bind (readByte_related congruent _) fun size => ?_
  have countable : size.toNat < UInt64.size := Nat.lt_trans size.toNat_lt (by decide)
  refine congruent.bind (congruent.reading countable) fun bytes => ?_
  split
  · exact congruent.answer _
  · exact congruent.refuse (by simp [DecodeError.group])

end Scalars

namespace Data

variable {C : Catalogue} {R R' : (α : Type) → EStateM ε σ α → EStateM ε' τ α → Prop}
  {limit limit' : Nat} {x : SlotsOn ε σ C} {y : SlotsOn ε' τ C}
  {deeperX : Option (SlotsOn ε σ C)} {deeperY : Option (SlotsOn ε' τ C)}

/-- Values of every type are read in a related way. -/
def SlotsRelated (R : (α : Type) → EStateM ε σ α → EStateM ε' τ α → Prop) (x : SlotsOn ε σ C)
    (y : SlotsOn ε' τ C) : Prop :=
  ∀ (t : Ty C.Name) (slot : Value C t), R _ (x t slot) (y t slot)

theorem readElements_related (congruent : Congruent R) (inner : SlotsRelated R x y) {t : Ty C.Name}
    (n : Nat) (slots : Elements C t) :
    R _ (readElements x n slots) (readElements y n slots) := by
  induction n generalizing slots with
  | zero => exact congruent.answer _
  | succ n ih =>
    rw [readElements_succ, readElements_succ]
    exact congruent.bind (inner t _) fun v => congruent.bind (ih _) fun vs => congruent.answer _

theorem readFields_related (congruent : Congruent R) (inner : SlotsRelated R x y)
    (fs : List (Field C.Name)) (slots : Data C (.fields fs)) :
    R _ (readFields x fs slots) (readFields y fs slots) := by
  induction fs with
  | nil =>
    cases slots
    exact congruent.answer _
  | cons f fs ih =>
    cases slots with
    | visited slot slots =>
      exact congruent.bind (inner _ slot) fun v =>
        congruent.bind (ih slots) fun vs => congruent.answer _
    | hidden slot slots => exact congruent.bind (ih slots) fun vs => congruent.answer _
    | flagged flag slot slots =>
      refine congruent.bind (readBool_related congruent) fun b => ?_
      cases b with
      | true =>
        exact congruent.bind (inner _ slot) fun v =>
          congruent.bind (ih slots) fun vs => congruent.answer _
      | false => exact congruent.bind (ih slots) fun vs => congruent.answer _

theorem invalidTag_related (congruent : Congruent R) {α : Type} (tag : UInt8) (n : Nat) :
    R α (Cursor.refuse (.invalidTag tag n)) (Cursor.refuse (.invalidTag tag n)) :=
  congruent.refuse (by simp [DecodeError.group])

theorem readDeclAlternative_related (congruent : Congruent R) (inner : SlotsRelated R x y)
    (d : Decl C.Name) (i : Nat) :
    R _ (readDeclAlternative x d i) (readDeclAlternative y d i) := by
  cases d with
  | record fs => exact invalidTag_related congruent _ 0
  | union k alternatives =>
    rw [readDeclAlternative, readDeclAlternative]
    by_cases known : i < k + 1
    · rw [dif_pos known, dif_pos known]
      exact congruent.bind (inner _ _) fun v => congruent.answer _
    · rw [dif_neg known, dif_neg known]
      exact invalidTag_related congruent _ _
  | uniform n t => exact congruent.bind (inner t _) fun v => congruent.answer _

theorem readAlternative_related (congruent : Congruent R) (inner : SlotsRelated R x y)
    (t : Ty C.Name) (i : Nat) :
    R _ (readAlternative x t i) (readAlternative y t i) := by
  cases t with
  | option t =>
    rcases i with _ | _ | i
    · exact congruent.bind (inner .unit .unit) fun v => congruent.answer _
    · exact congruent.bind (inner t _) fun v => congruent.answer _
    · exact invalidTag_related congruent _ 2
  | oneOf k alternatives =>
    rw [readAlternative, readAlternative]
    by_cases known : i < k + 1
    · rw [dif_pos known, dif_pos known]
      exact congruent.bind (inner _ _) fun v => congruent.answer _
    · rw [dif_neg known, dif_neg known]
      exact invalidTag_related congruent _ _
  | named n =>
    exact congruent.bind (readDeclAlternative_related congruent inner _ i) fun v =>
      congruent.answer _
  | _ => exact invalidTag_related congruent _ 0

/-- Whatever is read one level further in, it is related here as soon as it is related there. -/
def LevelRelated (R R' : (α : Type) → EStateM ε σ α → EStateM ε' τ α → Prop) (limit limit' : Nat)
    (deeperX : Option (SlotsOn ε σ C)) (deeperY : Option (SlotsOn ε' τ C)) : Prop :=
  ∀ ⦃α : Type⦄ ⦃bodyX : SlotsOn ε σ C → EStateM ε σ α⦄ ⦃bodyY : SlotsOn ε' τ C → EStateM ε' τ α⦄,
    (∀ x y, SlotsRelated R' x y → R' α (bodyX x) (bodyY y)) →
      R α (nested limit deeperX bodyX) (nested limit' deeperY bodyY)

theorem readUnion_related (congruent : Congruent R) {α : Type} (alternatives : Nat)
    (level : LevelRelated R R' limit limit' deeperX deeperY)
    {payloadX : SlotsOn ε σ C → Nat → EStateM ε σ α} {payloadY : SlotsOn ε' τ C → Nat → EStateM ε' τ α}
    (payload : ∀ x y, SlotsRelated R' x y → ∀ i, R' α (payloadX x i) (payloadY y i)) :
    R α (readUnion limit deeperX alternatives payloadX)
      (readUnion limit' deeperY alternatives payloadY) := by
  refine congruent.bind (readByte_related congruent _) fun tag => ?_
  by_cases known : alternatives ≤ tag.toNat
  · simp only [if_pos known]
    exact congruent.bind (invalidTag_related congruent tag alternatives) fun _ =>
      level fun x y inner => payload x y inner _
  · simp only [if_neg known]
    exact level fun x y inner => payload x y inner _

theorem readBody_related (congruent : Congruent R) (further : Congruent R')
    (level : LevelRelated R R' limit limit' deeperX deeperY) (d : Decl C.Name)
    (slot : Data C (.body d)) :
    R _ (readBody limit deeperX d slot) (readBody limit' deeperY d slot) := by
  cases d with
  | record fs =>
    cases slot with
    | record slots =>
      refine level fun x y inner => ?_
      exact further.bind (readFields_related further inner fs slots) fun vs => further.answer _
  | union k alternatives =>
    exact readUnion_related congruent _ level fun x y inner i =>
      readDeclAlternative_related further inner _ i
  | uniform n t =>
    exact readUnion_related congruent _ level fun x y inner i =>
      readDeclAlternative_related further inner _ i

/-- A value of any type is read in a related way, if levels are related and a relation holds inside
them that readings put together respect too. -/
theorem readOne_related (congruent : Congruent R) (further : Congruent R')
    (level : LevelRelated R R' limit limit' deeperX deeperY) :
    SlotsRelated R (readOne limit deeperX) (readOne limit' deeperY) := by
  intro t slot
  induction t with
  | number k =>
    exact congruent.bind (readNumber_related congruent k) fun bits => congruent.answer _
  | bool => exact congruent.bind (readBool_related congruent) fun b => congruent.answer _
  | text => exact congruent.bind (readText_related congruent) fun s => congruent.answer _
  | unit => exact level fun x y inner => further.answer _
  | seq t =>
    cases slot with
    | seq slots =>
      refine congruent.bind (readCount_related congruent _) fun len =>
        level fun x y inner => ?_
      exact further.bind (readElements_related further inner len slots) fun vs => further.answer _
  | box t ih =>
    cases slot with
    | box slot => exact congruent.bind (ih slot) fun v => congruent.answer _
  | option t =>
    exact readUnion_related congruent _ level fun x y inner i =>
      readAlternative_related further inner _ i
  | oneOf k alternatives =>
    exact readUnion_related congruent _ level fun x y inner i =>
      readAlternative_related further inner _ i
  | named n =>
    cases slot with
    | named slot =>
      exact congruent.bind (readBody_related congruent further level _ slot) fun v =>
        congruent.answer _

end Data

end Related

end FlatCodec
