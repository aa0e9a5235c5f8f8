import FlatCodec.Proofs.Diagnosis
import FlatCodec.Proofs.Pace
import FlatCodec.Proofs.RaisedLimit
import FlatCodec.Proofs.Watching
import Mathlib.Order.WellFounded

namespace FlatCodec

open Reader Watched

theorem Decl.rank_le_fieldsRank {ν : Type} {rankOf : ν → Nat} {f : Field ν} {fs : List (Field ν)}
    (found : f ∈ fs) : f.rank rankOf ≤ fieldsRank rankOf fs := by
  induction fs with
  | nil => cases found
  | cons g fs ih =>
    rw [fieldsRank]
    rcases List.mem_cons.mp found with rfl | later
    · exact Nat.le_max_left _ _
    · exact Nat.le_trans (ih later) (Nat.le_max_right _ _)

namespace Catalogue

variable {C : Catalogue}

/-- A value of the second type lies in one of the first with no tag, length or flag in front of
it. -/
inductive Bare (C : Catalogue) : Ty C.Name → Ty C.Name → Prop where
  | box (t : Ty C.Name) : Bare C (.box t) t
  | field {n : C.Name} {fs : List (Field C.Name)} {t : Ty C.Name} (declared : C.decl n = .record fs)
      (visited : .visited t ∈ fs) : Bare C (.named n) t

/-- The ranks by which initial values are finite fall from a record to its fields, and a box is
larger than its content. -/
theorem bare_acc (t : Ty C.Name) : Acc (Function.swap C.Bare) t := by
  -- A box may leave the rank as it is, so the induction on the type lies inside that on the rank.
  generalize ranked : t.rank C.rank = rank
  induction rank using Nat.strongRecOn generalizing t with
  | ind rank lower =>
    induction t with
    | box t ih =>
      refine Acc.intro _ fun u inside => ?_
      cases inside with
      | box => exact ih ranked
    | named n =>
      refine Acc.intro _ fun u inside => ?_
      cases inside with
      | @field _ fs _ declared visited =>
        have settled := C.settled n
        rw [declared] at settled
        have field : u.rank C.rank ≤ Decl.fieldsRank C.rank fs := Decl.rank_le_fieldsRank visited
        have named : C.rank n + 1 = rank := ranked
        have whole : Decl.fieldsRank C.rank fs ≤ C.rank n := settled
        exact lower _ (by omega) u rfl
    | _ => exact Acc.intro _ fun u inside => nomatch inside

/-- No type lies in itself with nothing but boxes and records around it. -/
theorem not_bare_self (t : Ty C.Name) : ¬ Relation.TransGen C.Bare t t := by
  intro circular
  have founded : WellFounded (Function.swap C.Bare) := ⟨bare_acc⟩
  exact founded.transGen.irrefl.irrefl t (Relation.TransGen.swap t t circular)

end Catalogue

theorem Reader.remaining_le_of_at? {bytes : List UInt8} {offset : Nat} {start : Reader}
    (located : Reader.at? bytes offset = .ok start) : start.remaining ≤ bytes.length := by
  rw [(placed_of_at? located).remaining_eq]
  exact Nat.sub_le _ _

namespace Data

variable {C : Catalogue} {prices : C.Prices} {start limit opened room spare : Nat}
  {inner : SlotsOn DecodeError Watched C} {α : Type}

/-- A value of any type is read at a pace that what there is to spare can bear, with so many levels
open around it. -/
def SlotsPaced (prices : C.Prices) (start limit opened : Nat) (inner : SlotsOn DecodeError Watched C) :
    Prop :=
  ∀ (t : Ty C.Name) (slot : Value C t) (spare : Nat), t.Affordable prices.cost spare →
    Paced start limit opened spare (inner t slot)

theorem readElements_paced (paced : SlotsPaced prices start limit opened inner) {t : Ty C.Name}
    (affordable : t.Affordable prices.cost spare) (n : Nat) (slots : Elements C t) :
    Paced start limit opened spare (readElements inner n slots) := by
  induction n generalizing slots with
  | zero => exact .answer _
  | succ n ih =>
    rw [readElements_succ]
    exact (paced t _ spare affordable).bind fun v => (ih _).bind fun vs => .answer _

theorem readFields_paced (paced : SlotsPaced prices start limit opened inner)
    {fs : List (Field C.Name)} (affordable : ∀ f ∈ fs, f.Affordable prices.cost spare)
    (slots : Data C (.fields fs)) :
    Paced start limit opened spare (readFields inner fs slots) := by
  induction fs with
  | nil =>
    cases slots
    exact .answer _
  | cons f fs ih =>
    obtain ⟨first, later⟩ := List.forall_mem_cons.mp affordable
    have others := ih later
    cases slots with
    | visited slot slots =>
      exact (paced _ slot spare first).bind fun v => (others slots).bind fun vs => .answer _
    | hidden slot slots => exact (others slots).bind fun vs => .answer _
    | flagged flag slot slots =>
      refine Paced.readBool.bind fun b => ?_
      cases b with
      | true =>
        exact (paced _ slot spare first).bind fun v => (others slots).bind fun vs => .answer _
      | false => exact (others slots).bind fun vs => .answer _

theorem readDeclAlternative_paced (paced : SlotsPaced prices start limit opened inner)
    {d : Decl C.Name} (affordable : d.Affordable prices.cost spare) (i : Nat) :
    Paced start limit opened (spare + 1) (readDeclAlternative inner d i) := by
  cases d with
  | record fs => exact .refuse_tag _ _
  | union k alternatives =>
    rw [readDeclAlternative]
    by_cases known : i < k + 1
    · rw [dif_pos known]
      exact (paced _ _ _ (affordable _)).bind fun v => .answer _
    · rw [dif_neg known]
      exact .refuse_tag _ _
  | uniform n t => exact (paced t _ _ affordable).bind fun v => .answer _

/-- Absence is a level of its own, which the one level more that there is to spare bears. -/
theorem readAlternative_paced (paced : SlotsPaced prices start limit opened inner) {t : Ty C.Name}
    (affordable : t.Affordable prices.cost spare) (i : Nat) :
    Paced start limit opened (spare + 1) (readAlternative inner t i) := by
  cases t with
  | option t =>
    rcases i with _ | _ | i
    · have absent : (Ty.unit : Ty C.Name).Affordable prices.cost (spare + 1) := Nat.le_add_left _ _
      exact (paced .unit .unit _ absent).bind fun v => .answer _
    · exact (paced t _ _ affordable).bind fun v => .answer _
    · exact .refuse_tag _ _
  | oneOf k alternatives =>
    rw [readAlternative]
    by_cases known : i < k + 1
    · rw [dif_pos known]
      exact (paced _ _ _ (affordable _)).bind fun v => .answer _
    · rw [dif_neg known]
      exact .refuse_tag _ _
  | named n =>
    have declared := readDeclAlternative_paced paced (prices.enough n) i
    exact (declared.mono (Nat.succ_le_succ affordable)).bind fun v => .answer _
  | _ => exact .refuse_tag _ _

/-- Values are read at that pace one level further in, where `room` levels are left. -/
def PacedFurtherIn (prices : C.Prices) (start limit opened room : Nat) : Prop :=
  ∀ n, room = n + 1 → SlotsPaced prices start limit (opened + 1) (readWithin limit n)

theorem nested_paced (levels : opened + room = limit)
    (deeper : PacedFurtherIn prices start limit opened room)
    {body : SlotsOn DecodeError Watched C → Watching α}
    (paced : ∀ inner, SlotsPaced prices start limit (opened + 1) inner →
      Paced start limit (opened + 1) spare (body inner)) :
    Paced start limit opened (spare + 1) (nested limit (furtherIn limit room) body) := by
  cases room with
  | zero => exact .missing (Nat.le_of_eq levels.symm)
  | succ n => exact .nested (paced _ (deeper n rfl))

/-- The tag pays for two levels, and the union itself takes one of them. -/
theorem readUnion_paced (levels : opened + room = limit)
    (deeper : PacedFurtherIn prices start limit opened room) (alternatives : Nat)
    {payload : SlotsOn DecodeError Watched C → Nat → Watching α}
    (paced : ∀ inner, SlotsPaced prices start limit (opened + 1) inner → ∀ i,
      Paced start limit (opened + 1) (spare + 1) (payload inner i)) :
    Paced start limit opened spare
      (readUnion limit (furtherIn limit room) alternatives payload) := by
  refine Paced.paying "union tag" fun tag => ?_
  have inside : Paced start limit opened (spare + 2)
      (nested limit (furtherIn limit room) fun inner => payload inner tag.toNat) :=
    nested_paced levels deeper fun inner slots => paced inner slots tag.toNat
  by_cases known : alternatives ≤ tag.toNat
  · simp only [if_pos known]
    exact (Paced.refuse_tag _ _).bind fun _ => inside
  · simp only [if_neg known]
    exact inside

theorem readBody_paced (levels : opened + room = limit)
    (deeper : PacedFurtherIn prices start limit opened room) {d : Decl C.Name}
    (affordable : d.Affordable prices.cost spare) (slot : Data C (.body d)) :
    Paced start limit opened spare (readBody limit (furtherIn limit room) d slot) := by
  cases d with
  | record fs =>
    cases slot with
    | record slots =>
      cases spare with
      | zero => cases affordable
      | succ spare =>
        refine nested_paced levels deeper fun inner paced => ?_
        exact (readFields_paced paced affordable slots).bind fun vs => .answer _
  | union k alternatives =>
    exact readUnion_paced levels deeper _ fun inner paced i =>
      readDeclAlternative_paced paced affordable i
  | uniform n t =>
    exact readUnion_paced levels deeper _ fun inner paced i =>
      readDeclAlternative_paced paced affordable i

theorem readOne_paced (levels : opened + room = limit)
    (deeper : PacedFurtherIn prices start limit opened room) :
    SlotsPaced prices start limit opened (readOne limit (furtherIn limit room)) := by
  intro t slot spare affordable
  induction t with
  | number k => exact (Paced.readNumber k).bind fun bits => .answer _
  | bool => exact Paced.readBool.bind fun b => .answer _
  | text => exact Paced.readText.bind fun s => .answer _
  | unit =>
    cases spare with
    | zero => cases affordable
    | succ spare => exact nested_paced levels deeper fun inner paced => .answer _
  | seq t =>
    cases slot with
    | seq slots =>
      have element : t.Affordable prices.cost (spare + 1) := affordable
      rw [readOne, readCount_bind]
      refine Paced.paying "sequence length" fun size => nested_paced levels deeper ?_
      intro inner paced
      exact (readElements_paced paced element _ slots).bind fun vs => .answer _
  | box t ih =>
    cases slot with
    | box slot => exact (ih slot affordable).bind fun v => .answer _
  | option t =>
    exact readUnion_paced levels deeper _ fun inner paced i =>
      readAlternative_paced paced affordable i
  | oneOf k alternatives =>
    exact readUnion_paced levels deeper _ fun inner paced i =>
      readAlternative_paced paced affordable i
  | named n =>
    cases slot with
    | named slot =>
      have declared := readBody_paced levels deeper (prices.enough n) slot
      exact (declared.mono affordable).bind fun v => .answer _

theorem readWithin_paced (levels : opened + room = limit) :
    SlotsPaced prices start limit opened (readWithin limit room) := by
  induction room using Nat.strongRecOn generalizing opened with
  | ind room further =>
    intro t slot spare affordable
    rw [readWithin_eq]
    have deeper : PacedFurtherIn prices start limit opened room := by
      -- One more level is open there and one fewer left, so together they still reach the limit.
      intro n left
      exact further n (by omega) (by omega)
    exact readOne_paced levels deeper t slot spare affordable

/-- Every value is read from any place on at the pace that the bytes pay for. -/
theorem watchInto_ranPaid (prices : C.Prices) {t : Ty C.Name} (limit : Nat) (slot : Value C t)
    (r : Reader) :
    let ended := watchInto limit slot ⟨r, []⟩
    (∀ m ∈ (stateOf ended).moments, Paid r.position m.levels m.position) ∧
      ∀ max, verdictOf ended = .error (.depthExceeded max) →
        Paid r.position (limit + 1) (stateOf ended).reader.position := by
  -- At the start nothing is open, and two levels are there to spare for no byte at all.
  let begun : Watched := ⟨⟨r, []⟩, 0⟩
  have funded : Funded r.position 0 2 begun := by
    refine ⟨rfl, ⟨Nat.le_refl _, Nat.le_add_left _ _⟩, ?_⟩
    intro m taken
    cases taken
  have affordable : t.Affordable prices.cost 2 :=
    t.affordable_of_cost_le prices.cheap (Nat.le_refl 2)
  have ran := readWithin_paced (Nat.zero_add limit) t slot 2 affordable begun funded
  intro ended
  have state : stateOf ended = (stateOf (readWithin limit limit t slot begun)).state :=
    stateOf_mapState _ _
  have verdict : verdictOf ended = verdictOf (readWithin limit limit t slot begun) :=
    verdictOf_mapState _ _
  rw [state, verdict]
  exact ⟨ran.noted, ran.missed⟩

/-- No level is missed under a limit that all bytes together pay for. -/
theorem readInto_within_levels (prices : C.Prices) {t : Ty C.Name} (slot : Value C t) {r : Reader}
    (enough : 2 * r.remaining + 2 ≤ limit) (max : Nat) :
    verdictOf (readInto limit slot r) ≠ .error (.depthExceeded max) := by
  intro missed
  obtain ⟨-, paid⟩ := watchInto_ranPaid prices limit slot r
  have missed' : verdictOf (watchInto limit slot ⟨r, []⟩) = .error (.depthExceeded max) := by
    rw [verdictOf_watchInto, missed]
  obtain ⟨-, levels⟩ := paid max missed'
  have reader : (stateOf (watchInto limit slot ⟨r, []⟩)).reader =
      stateOf (readInto limit slot r) := by
    rw [← watchInto_follows slot ⟨r, []⟩, stateOf_mapState]
  obtain ⟨part, consumed⟩ := (readInto_sequential limit slot).consumes r
  have reached := consumed.position
  have few : part.length ≤ r.remaining := by
    rw [remaining, consumed.rest, List.length_append]
    exact Nat.le_add_right _ _
  rw [reader, reached] at levels
  omega

/-- All limits that the bytes pay for are as good as the least of them. -/
theorem watchInto_of_enough (prices : C.Prices) {t : Ty C.Name} (slot : Value C t) {r : Reader}
    (enough : 2 * r.remaining + 2 ≤ limit) :
    watchInto limit slot ⟨r, []⟩ = watchInto (2 * r.remaining + 2) slot ⟨r, []⟩ := by
  apply watchInto_of_raised enough
  intro max
  rw [verdictOf_watchInto]
  exact readInto_within_levels prices slot (Nat.le_refl _) max

theorem readInto_of_enough (prices : C.Prices) {t : Ty C.Name} (slot : Value C t) {r : Reader}
    (enough : 2 * r.remaining + 2 ≤ limit) :
    readInto limit slot r = readInto (2 * r.remaining + 2) slot r := by
  have watched := watchInto_of_enough prices slot enough
  rw [← watchInto_follows slot ⟨r, []⟩, watched, watchInto_follows]

theorem fromBytesIntoWith_of_enough (prices : C.Prices) {t : Ty C.Name} (options : DecodeOptions)
    (slot : Value C t) {bytes : List UInt8} {limit' : Nat} (enough : 2 * bytes.length + 2 ≤ limit)
    (enough' : 2 * bytes.length + 2 ≤ limit') :
    fromBytesIntoWith { options with maxDepth := limit' } slot bytes =
      fromBytesIntoWith { options with maxDepth := limit } slot bytes := by
  cases located : Reader.at? bytes options.offset with
  | error e => simp [fromBytesIntoWith, located, bind, Except.bind]
  | ok start =>
    have few := remaining_le_of_at? located
    have least : 2 * start.remaining + 2 ≤ limit := by omega
    have least' : 2 * start.remaining + 2 ≤ limit' := by omega
    have alike : readInto limit' slot start = readInto limit slot start := by
      rw [readInto_of_enough prices slot least, readInto_of_enough prices slot least']
    have decoded (depth : Nat) :=
      @fromBytesIntoWith_eq C { options with maxDepth := depth } t slot bytes start located
    rw [decoded, decoded, alike]

theorem fromBytesIntoWith_within_levels (prices : C.Prices) {t : Ty C.Name}
    {options : DecodeOptions} (slot : Value C t) {bytes : List UInt8}
    (enough : 2 * bytes.length + 2 ≤ options.maxDepth) (max : Nat) :
    fromBytesIntoWith options slot bytes ≠ .error (.depthExceeded max) := by
  intro missed
  rcases fromBytesIntoWith_eq_error missed with ⟨-, outside⟩ | ⟨start, located, inside⟩
  · cases outside
  · have few := remaining_le_of_at? located
    have enough' : 2 * start.remaining + 2 ≤ options.maxDepth := by omega
    rcases inside with ⟨r, failed⟩ | ⟨v, r, -, -, -, left⟩
    · apply readInto_within_levels prices slot enough' max
      rw [failed]
      rfl
    · cases left

end Data

namespace Sample

/-- How many levels a value of the name may open before a byte of it is read. -/
def cost : Name → Nat
  | .bar | .shell => 2
  | .command | .shape | .expr | .solo | .wide => 0
  | _ => 1

def prices : sample.Prices where
  cost := cost
  enough n := by cases n <;> decide
  cheap n := by cases n <;> decide

end Sample

namespace Data

open Sample (Name prices)

/-- Decoding needs no limit to end. No type lies in itself but behind a byte of its own; so at every
moment, also where decoding fails, at most two levels are open for each byte that was consumed, and
two more. Under a limit that leaves room for so many no level is ever missed, and however high it
is, decoding goes through the same moments to the same end. -/
theorem levels_paid_by_bytes (t : Ty Name) :
    ¬ Relation.TransGen sample.Bare t t ∧
    (∀ (limit : Nat) (slot : Value sample t) (r : Reader),
      let watched := watchInto limit slot ⟨r, []⟩
      mapState Log.reader watched = readInto limit slot r ∧
      (∀ m ∈ (stateOf watched).moments,
        r.position ≤ m.position ∧ m.levels ≤ 2 * (m.position - r.position) + 2) ∧
      (2 * r.remaining + 2 ≤ limit →
        (∀ max r', readInto limit slot r ≠ .error (.depthExceeded max) r') ∧
        ∀ limit', 2 * r.remaining + 2 ≤ limit' →
          watchInto limit' slot ⟨r, []⟩ = watched ∧
            readInto limit' slot r = readInto limit slot r)) ∧
    ∀ (options : DecodeOptions) (slot : Value sample t) (bytes : List UInt8),
      2 * bytes.length + 2 ≤ options.maxDepth →
        (∀ max, fromBytesIntoWith options slot bytes ≠ .error (.depthExceeded max)) ∧
        ∀ limit', 2 * bytes.length + 2 ≤ limit' →
          fromBytesIntoWith { options with maxDepth := limit' } slot bytes =
            fromBytesIntoWith options slot bytes := by
  refine ⟨Catalogue.not_bare_self (C := sample) t, ?_, ?_⟩
  · intro limit slot r watched
    refine ⟨watchInto_follows slot _, (watchInto_ranPaid prices limit slot r).1, ?_⟩
    intro enough
    refine ⟨?_, ?_⟩
    · intro max r' missed
      apply readInto_within_levels prices slot enough max
      rw [missed]
      rfl
    · intro limit' enough'
      refine ⟨?_, ?_⟩
      · rw [watchInto_of_enough prices slot enough',
          ← watchInto_of_enough prices slot enough]
      · rw [readInto_of_enough prices slot enough',
          ← readInto_of_enough prices slot enough]
  · intro options slot bytes enough
    refine ⟨fromBytesIntoWith_within_levels prices slot enough, ?_⟩
    intro limit' enough'
    exact fromBytesIntoWith_of_enough prices options slot enough enough'

/-- Three groups in each other, the last one empty, open a level with each of their six bytes; so
five levels are too few for them, and fourteen are as good as a thousand. Where the last count is
cut off, its byte is what is missing, and no level. -/
theorem levels_paid_by_bytes_sample :
    let groups := initial (C := sample) (.named .expr)
    let bytes : List UInt8 := [2, 1, 2, 1, 2, 0]
    let watched := watchInto 14 groups ⟨ofBytes bytes, []⟩
    (fromBytesIntoWith { maxDepth := 5 } groups bytes = .error (.depthExceeded 5) ∧
      fromBytesIntoWith { maxDepth := 1000 } groups bytes =
        fromBytesIntoWith { maxDepth := 14 } groups bytes) ∧
    (⟨6, 6⟩ ∈ (stateOf watched).moments ∧
      ∀ m ∈ (stateOf watched).moments, m.levels ≤ 2 * m.position + 2) ∧
    (readInto 12 groups (ofBytes [2, 1, 2, 1, 2]) =
        .error (.outOfBounds "sequence length" 1 0) ⟨5, []⟩ ∧
      readInto 1000 groups (ofBytes [2, 1, 2, 1, 2]) =
        .error (.outOfBounds "sequence length" 1 0) ⟨5, []⟩) := by
  intro groups bytes watched
  obtain ⟨-, readings, decodings⟩ := levels_paid_by_bytes (.named .expr)
  have enough : 2 * bytes.length + 2 ≤ 14 := by decide
  have enough' : 2 * bytes.length + 2 ≤ 1000 := by decide
  have cut : readInto 12 groups (ofBytes [2, 1, 2, 1, 2]) =
      .error (.outOfBounds "sequence length" 1 0) ⟨5, []⟩ := rfl
  refine ⟨⟨rfl, ?_⟩, ⟨?_, ?_⟩, cut, ?_⟩
  · exact (decodings { maxDepth := 14 } groups bytes enough).2 1000 enough'
  · decide +kernel
  · intro m taken
    exact ((readings 14 groups (ofBytes bytes)).2.1 m taken).2
  · rw [← cut]
    exact (((readings 12 groups (ofBytes [2, 1, 2, 1, 2])).2.2 (by decide)).2 1000 (by decide)).2

end Data

end FlatCodec
