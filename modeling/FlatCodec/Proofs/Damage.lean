import FlatCodec.Proofs.FirstViolation
import FlatCodec.Proofs.RoundTrip
import FlatCodec.Sample

namespace FlatCodec

open Reader Item

/-- The form of a node lies in these bytes where its offset says. -/
def Node.LiesIn (bytes : List UInt8) (n : Node) : Prop :=
  n.offset ≤ bytes.length ∧ n.item.layout <+: bytes.drop n.offset

namespace Node.LiesIn

variable {first rest : List UInt8} {n : Node}

theorem outermost (i : Item) (alternatives : Nat) : LiesIn i.layout { item := i, alternatives } :=
  ⟨Nat.zero_le _, List.prefix_rfl⟩

theorem followed (lies : LiesIn first n) : LiesIn (first ++ rest) n := by
  obtain ⟨reached, form⟩ := lies
  refine ⟨?_, ?_⟩
  · rw [List.length_append]
    exact Nat.le_add_right_of_le reached
  · rw [List.drop_append_of_le_length reached]
    exact form.trans (List.prefix_append _ _)

theorem behind (lies : LiesIn rest n) : LiesIn (first ++ rest) (n.behind first.length) := by
  obtain ⟨reached, form⟩ := lies
  refine ⟨?_, ?_⟩
  · rw [List.length_append, Node.behind_offset]
    exact Nat.add_le_add_left reached _
  · rw [Node.behind_offset, Node.behind_item, List.drop_length_add_append]
    exact form

theorem inside (first : List UInt8) (lies : LiesIn rest n) :
    LiesIn (first ++ rest) (n.inside first.length) :=
  lies.behind

end Node.LiesIn

section Walks

variable {i : Item} {is : List Item} {ns ms : List Node}

private theorem all_lie_inside {rest : List UInt8} (alternatives : Nat) (first : List UInt8)
    (form : i.layout = first ++ rest) (inside : ∀ n ∈ ns, n.LiesIn rest) :
    ∀ n ∈ ({ item := i, alternatives } :: ns.map (.inside first.length) : List Node),
      n.LiesIn i.layout := by
  refine List.forall_mem_cons.mpr ⟨.outermost _ _, List.forall_mem_map.mpr ?_⟩
  intro n found
  rw [form]
  exact (inside n found).inside first

private theorem all_lie_in_row (head : ∀ n ∈ ns, n.LiesIn i.layout)
    (tail : ∀ n ∈ ms, n.LiesIn (layoutAll is)) :
    ∀ n ∈ ns ++ ms.map (.behind i.layout.length), n.LiesIn (layoutAll (i :: is)) := by
  refine List.forall_mem_append.mpr ⟨?_, List.forall_mem_map.mpr ?_⟩
  · intro n found
    exact (head n found).followed
  · intro n found
    exact (tail n found).behind

private theorem all_lie_behind_flag {b : Bool} (rest : ∀ n ∈ ns, n.LiesIn (layoutAll is)) :
    ∀ n ∈ ({ item := .bool b } :: ns.map (.behind 1) : List Node),
      n.LiesIn (layoutAll (.bool b :: is)) :=
  all_lie_in_row (List.forall_mem_singleton.mpr (.outermost (.bool b) 0)) rest

end Walks

namespace Data

variable {C : Catalogue}

/-- Every visited place of a part has its form in the form of the part, where its offset says. -/
theorem nodes_lie {p : Part C.Name} (v : Data C p) :
    ∀ n ∈ v.nodes, n.LiesIn (Part.layout v.view) := by
  induction v with
  | number k bits => exact List.forall_mem_singleton.mpr (.outermost _ _)
  | bool b => exact List.forall_mem_singleton.mpr (.outermost _ _)
  | text s => exact List.forall_mem_singleton.mpr (.outermost _ _)
  | unit => exact List.forall_mem_singleton.mpr (.outermost _ _)
  | seq vs ih => exact all_lie_inside 0 [_] rfl ih
  | box v ih => exact ih
  | absent =>
    exact all_lie_inside 2 [_] rfl (List.forall_mem_singleton.mpr (.outermost (.composite []) 0))
  | present v ih => exact all_lie_inside 2 [_] rfl ih
  | oneOf i v ih => exact all_lie_inside _ [_] rfl ih
  | named v ih => exact ih
  | nil => exact List.forall_mem_nil _
  | cons v vs hv hvs => exact all_lie_in_row hv hvs
  | done => exact List.forall_mem_nil _
  | visited v vs hv hvs => exact all_lie_in_row hv hvs
  | hidden v vs hv hvs => exact hvs
  | flagged b v vs hv hvs =>
    cases b with
    | true => exact all_lie_behind_flag (all_lie_in_row hv hvs)
    | false => exact all_lie_behind_flag hvs
  | record vs ih => exact all_lie_inside 0 [] rfl ih
  | union i v ih => exact all_lie_inside _ [_] rfl ih
  | uniform i v ih => exact all_lie_inside _ [_] rfl ih

end Data

/-- Between two places lies what no item in this one's place can begin with: a tag that names no
alternative, a byte that is no bool, or the count of the text with bytes that spell none. -/
inductive Item.Spoiled (alternatives : Nat) (r r' : Reader) : Item → DecodeError → Prop where
  | tag {d payload tag} (unknown : alternatives ≤ tag.toNat) (there : Consumed r [tag] r') :
      Spoiled alternatives r r' (.union d payload) (.invalidTag tag alternatives)
  | bool {b value} (neither : 2 ≤ value.toNat) (there : Consumed r [value] r') :
      Spoiled alternatives r r' (.bool b) (.invalidBool value)
  | text {s content} (sized : content.length = s.utf8ByteSize)
      (unspelled : ∀ other, utf8Bytes other ≠ content)
      (there : Consumed r (UInt8.ofNat s.utf8ByteSize :: content) r') :
      Spoiled alternatives r r' (.text s) (.invalidUtf8 "text")

/-- At one of these nodes the bytes are spoiled, and up to there they are as written. -/
def Spoils (bytes : List UInt8) (nodes : List Node) (e : DecodeError) (r r' : Reader) : Prop :=
  ∃ n ∈ nodes, ∃ m, Consumed r (bytes.take n.offset) m ∧ n.item.Spoiled n.alternatives m r' e

section Spoiled

variable {rest : List UInt8} {ns ms : List Node} {e : DecodeError} {r r' : Reader}

theorem not_spoils_nil {bytes : List UInt8} : ¬ Spoils bytes [] e r r' := by
  rintro ⟨n, found, -⟩
  exact List.not_mem_nil found

/-- Before the outermost node nothing is written. -/
theorem spoils_cons {bytes : List UInt8} {i : Item} {alternatives : Nat}
    (h : Spoils bytes ({ item := i, alternatives } :: ns) e r r') :
    i.Spoiled alternatives r r' e ∨ Spoils bytes ns e r r' := by
  obtain ⟨n, found, m, front, spoiled⟩ := h
  obtain rfl | found := List.mem_cons.mp found
  · obtain rfl := consumed_nil_iff.mp front
    exact .inl spoiled
  · exact .inr ⟨n, found, m, front, spoiled⟩

theorem spoils_leaf {bytes : List UInt8} {i : Item} (h : Spoils bytes [{ item := i }] e r r') :
    i.Spoiled 0 r r' e :=
  (spoils_cons h).resolve_right not_spoils_nil

theorem spoils_append {first : List UInt8} (lie : ∀ n ∈ ns, n.LiesIn first)
    (h : Spoils (first ++ rest) (ns ++ ms) e r r') :
    Spoils first ns e r r' ∨ Spoils (first ++ rest) ms e r r' := by
  obtain ⟨n, found, m, front, spoiled⟩ := h
  obtain found | found := List.mem_append.mp found
  · rw [List.take_append_of_le_length (lie n found).1] at front
    exact .inl ⟨n, found, m, front, spoiled⟩
  · exact .inr ⟨n, found, m, front, spoiled⟩

theorem spoils_behind (first : List UInt8)
    (h : Spoils (first ++ rest) (ns.map (.behind first.length)) e r r') :
    ∃ m, Consumed r first m ∧ Spoils rest ns e m r' := by
  obtain ⟨_, mapped, m, front, spoiled⟩ := h
  obtain ⟨n, found, rfl⟩ := List.mem_map.mp mapped
  rw [Node.behind_offset, List.take_length_add_append, consumed_append_iff] at front
  obtain ⟨m', all, front⟩ := front
  exact ⟨m', all, n, found, m, front, spoiled⟩

theorem spoils_inside (first : List UInt8)
    (h : Spoils (first ++ rest) (ns.map (.inside first.length)) e r r') :
    ∃ m, Consumed r first m ∧ Spoils rest ns e m r' := by
  refine spoils_behind first ?_
  obtain ⟨_, mapped, m, front, spoiled⟩ := h
  obtain ⟨n, found, rfl⟩ := List.mem_map.mp mapped
  exact ⟨n.behind first.length, List.mem_map_of_mem found, m, front, spoiled⟩

/-- A spoiled place in fields that begin with a flag is the flag, or lies behind a flag as it was
written. -/
theorem spoils_flag {b : Bool} {is : List Item}
    (h : Spoils (layoutAll (.bool b :: is)) ({ item := .bool b } :: ns.map (.behind 1)) e r r') :
    readBool r = .error e r' ∨ ∃ m, readBool r = .ok b m ∧ Spoils (layoutAll is) ns e m r' := by
  obtain spoiled | behind := spoils_cons h
  · cases spoiled with
    | bool neither there => exact .inl (readBool_of_neither neither there)
  · obtain ⟨m, said, inside⟩ := spoils_behind [_] behind
    exact .inr ⟨m, readBool_eq_ok_iff.mpr said, inside⟩

end Spoiled

namespace Data

variable {C : Catalogue} {limit opened room : Nat} {e : DecodeError} {r r' : Reader}

theorem readUnion_of_spoils {α : Type} {alternatives d : Nat}
    {payload : Slots C → Nat → Reading α} {i : Item} {ns : List Node}
    (levels : opened + room = limit) (known : d ≤ maxDiscriminant → d < alternatives)
    (sound : fault? limit opened (.union d i) = none)
    (spoils : Spoils (Item.layout (.union d i))
      ({ item := .union d i, alternatives } :: ns.map (.inside 1)) e r r')
    (alternative : ∀ {n m}, opened + 1 + n = limit → fault? limit (opened + 1) i = none →
      Spoils i.layout ns e m r' → payload (readWithin limit n) d m = .error e r') :
    readUnion limit (furtherIn limit room) alternatives payload r = .error e r' := by
  obtain ⟨low, free, inner⟩ := fault?_union_eq_none_iff.mp sound
  obtain ⟨n, rfl, deeper⟩ := further levels free
  obtain spoiled | behind := spoils_cons spoils
  · cases spoiled with
    | tag unknown there => exact readUnion_of_unknown unknown there
  · obtain ⟨m, tag, inside⟩ := spoils_inside [_] behind
    rw [readUnion_of_known (known low) ⟨low, tag⟩]
    exact alternative deeper inner inside

theorem not_spoils_unit : ¬ Spoils [] [{ item := .composite [] }] e r r' := by
  intro h
  cases spoils_leaf h

/-- A spoiled place in a row lies in the first part, or behind the first part as it was written. -/
theorem spoils_row {t : Ty C.Name} {v : Value C t} {is : List Item} {ns : List Node}
    (sound : faultAll? limit opened (v.view :: is) = none)
    (spoils : Spoils (layoutAll (v.view :: is))
      (v.nodes ++ ns.map (.behind v.view.layout.length)) e r r') :
    (fault? limit opened v.view = none ∧ Spoils v.view.layout v.nodes e r r') ∨
      ∃ m, v.view.Spans limit opened r m ∧
        faultAll? limit opened is = none ∧ Spoils (layoutAll is) ns e m r' := by
  obtain ⟨first, others⟩ := faultAll?_cons_eq_none_iff.mp sound
  obtain head | tail := spoils_append (nodes_lie v) spoils
  · exact .inl ⟨first, head⟩
  · obtain ⟨m, there, tail⟩ := spoils_behind _ tail
    exact .inr ⟨m, ⟨first, there⟩, others, tail⟩

/-- Where the form of a part lies up to a spoiled place, reading the part fails behind that place
with what is wrong there. -/
theorem readPart_of_spoils {p : Part C.Name} (v slot : Data C p) (ample : p.Ample)
    (levels : opened + room = limit) (sound : Part.fault? limit opened v.view = none)
    (spoils : Spoils (Part.layout v.view) v.nodes e r r') :
    readPart limit room v slot r = .error e r' := by
  -- Everything before the place is read back as it was written; the induction finds the place.
  induction v generalizing opened room r with
  | number k bits => cases spoils_leaf spoils
  | bool b =>
    cases spoils_leaf spoils with
    | bool neither there =>
      rw [readPart, readWithin_eq]
      exact bind_of_error (readBool_of_neither neither there)
  | text s =>
    cases spoils_leaf spoils with
    | text sized unspelled there =>
      have sound : fault? limit opened (.text s) = none := sound
      have short := fault?_text_eq_none_iff.mp sound
      rw [← sized] at short there
      rw [readPart, readWithin_eq]
      exact bind_of_error (readText_of_unspelled short unspelled there)
  | unit => exact absurd spoils not_spoils_unit
  | seq vs ih =>
    cases slot with
    | seq slots =>
      obtain ⟨short, free, inner⟩ := fault?_sequence_eq_none_iff.mp sound
      obtain ⟨n, rfl, deeper⟩ := further levels free
      obtain spoiled | behind := spoils_cons spoils
      · cases spoiled
      · obtain ⟨m, counted, inside⟩ := spoils_inside [_] behind
        rw [readPart, readWithin_eq]
        refine (bind_of_ok (readCount_eq_ok_iff.mpr ⟨short, counted⟩)).trans ?_
        exact bind_of_error (ih slots trivial deeper inner inside)
  | box v ih =>
    cases slot with
    | box slot =>
      have read := ih slot trivial levels sound spoils
      rw [readPart, readWithin_eq] at read ⊢
      exact bind_of_error read
  | absent =>
    have spoils : Spoils (Item.layout (.union 0 (.composite [])))
        ({ item := .union 0 (.composite []), alternatives := 2 } ::
          [{ item := .composite [] }].map (.inside 1)) e r r' := spoils
    rw [readPart, readWithin_eq]
    refine readUnion_of_spoils levels (fun _ => by decide) sound spoils fun {n m} _ _ inside => ?_
    exact absurd inside not_spoils_unit
  | present v ih =>
    rw [readPart, readWithin_eq]
    refine readUnion_of_spoils levels (fun _ => by decide) sound spoils
      fun {n m} deeper inner inside => ?_
    exact bind_of_error (ih (initial _) trivial deeper inner inside)
  | oneOf i v ih =>
    rw [readPart, readWithin_eq]
    refine readUnion_of_spoils levels (fun _ => i.isLt) sound spoils
      fun {n m} deeper inner inside => ?_
    rw [readAlternative, dif_pos i.isLt]
    exact bind_of_error (ih (initial _) trivial deeper inner inside)
  | named v ih =>
    cases slot with
    | named slot =>
      have read := ih slot (C.ample _) levels sound spoils
      rw [readPart, readWithin_eq]
      exact bind_of_error read
  | nil => exact absurd spoils not_spoils_nil
  | cons v vs hv hvs =>
    rw [readPart, view, List.length_cons, readElements_succ]
    obtain ⟨first, head⟩ | ⟨m, head, others, tail⟩ := spoils_row sound spoils
    · exact bind_of_error (hv slot.nextSlot trivial levels first head)
    · refine (bind_of_ok (readPart_of_spans v slot.nextSlot trivial levels head)).trans ?_
      exact bind_of_error (hvs slot.laterSlots trivial levels others tail)
  | done => exact absurd spoils not_spoils_nil
  | visited v vs hv hvs =>
    cases slot with
    | visited slot slots =>
      obtain ⟨first, head⟩ | ⟨m, head, others, tail⟩ := spoils_row sound spoils
      · exact bind_of_error (hv slot trivial levels first head)
      · refine (bind_of_ok (readPart_of_spans v slot trivial levels head)).trans ?_
        exact bind_of_error (hvs slots trivial levels others tail)
  | hidden v vs hv hvs =>
    cases slot with
    | hidden slot slots => exact bind_of_error (hvs slots trivial levels sound spoils)
  | flagged b v vs hv hvs =>
    cases slot with
    | flagged flag slot slots =>
      cases b with
      | true =>
        obtain refused | ⟨m, said, inside⟩ := spoils_flag spoils
        · exact bind_of_error refused
        · refine (bind_of_ok said).trans ?_
          obtain ⟨first, head⟩ | ⟨m', head, others, tail⟩ := spoils_row sound inside
          · exact bind_of_error (hv slot trivial levels first head)
          · refine (bind_of_ok (readPart_of_spans v slot trivial levels head)).trans ?_
            exact bind_of_error (hvs slots trivial levels others tail)
      | false =>
        obtain refused | ⟨m, said, tail⟩ := spoils_flag spoils
        · exact bind_of_error refused
        · refine (bind_of_ok said).trans ?_
          exact bind_of_error (hvs slots trivial levels sound tail)
  | record vs ih =>
    cases slot with
    | record slots =>
      obtain ⟨free, inner⟩ := fault?_composite_eq_none_iff.mp sound
      obtain ⟨n, rfl, deeper⟩ := further levels free
      obtain spoiled | behind := spoils_cons spoils
      · cases spoiled
      · obtain ⟨m, none, inside⟩ := spoils_inside [] behind
        obtain rfl := consumed_nil_iff.mp none
        exact bind_of_error (ih slots trivial deeper inner inside)
  | union i v ih =>
    rw [readPart, readBody]
    refine readUnion_of_spoils levels (fun _ => i.isLt) sound spoils
      fun {n m} deeper inner inside => ?_
    rw [readDeclAlternative, dif_pos i.isLt]
    exact bind_of_error (ih (initial _) trivial deeper inner inside)
  | uniform i v ih =>
    rw [readPart, readBody]
    have known (low : i ≤ maxDiscriminant) := Nat.lt_of_le_of_lt low ample
    refine readUnion_of_spoils levels known sound spoils fun {n m} deeper inner inside => ?_
    exact bind_of_error (ih (initial _) trivial deeper inner inside)

variable {t : Ty C.Name}

/-- Reading the bytes into a slot stops behind so many of them with a failure, and so does decoding
them. -/
def StopsAt (limit : Nat) (slot : Value C t) (bytes : List UInt8) (position : Nat)
    (e : DecodeError) : Prop :=
  readInto limit slot (ofBytes bytes) = .error e ⟨position, bytes.drop position⟩ ∧
    fromBytesIntoWith { maxDepth := limit } slot bytes = .error e

theorem stopsAt_of_spoiled {v : Value C t} {bytes rest : List UInt8} {n : Node}
    (damage : List UInt8) (written : v.toBytesWith { maxDepth := limit } = .ok bytes)
    (found : n ∈ v.nodes)
    (spoiled : n.item.Spoiled n.alternatives ⟨n.offset, damage ++ rest⟩
      ⟨n.offset + damage.length, rest⟩ e) (slot : Value C t) :
    StopsAt limit slot (bytes.take n.offset ++ (damage ++ rest)) (n.offset + damage.length) e := by
  obtain ⟨rfl, sound, -⟩ := toBytes_eq_ok_iff_spans.mp written
  have reached : (v.view.layout.take n.offset).length = n.offset :=
    List.length_take_of_le (nodes_lie v n found).1
  have front : Consumed (ofBytes (v.view.layout.take n.offset ++ (damage ++ rest)))
      (v.view.layout.take n.offset) ⟨n.offset, damage ++ rest⟩ :=
    ⟨rfl, by simp only [ofBytes, reached, Nat.zero_add]⟩
  have spoils : Spoils v.view.layout v.nodes e _ _ := ⟨n, found, _, front, spoiled⟩
  have stops : readInto limit slot (ofBytes (v.view.layout.take n.offset ++ (damage ++ rest))) =
      .error e ⟨n.offset + damage.length, rest⟩ := by
    rw [readInto_eq]
    exact readPart_of_spoils v slot trivial (Nat.zero_add limit) sound spoils
  have left : (v.view.layout.take n.offset ++ (damage ++ rest)).drop (n.offset + damage.length) =
      rest := by
    rw [← List.append_assoc]
    exact List.drop_left' (by rw [List.length_append, reached])
  refine ⟨by rw [left, stops], ?_⟩
  rw [fromBytesIntoWith_eq (at?_zero _), stops]

/-- Damage is found where it is done. Where a tag is replaced by one that names no alternative, a
bool by a byte that is none, or the bytes of a text by as many that spell none, decoding fails right
behind them with what is wrong there, and whatever follows is of no matter. -/
theorem damage_found_in_place {v : Value C t} {bytes : List UInt8} {n : Node}
    (written : v.toBytesWith { maxDepth := limit } = .ok bytes) (found : n ∈ v.nodes)
    (slot : Value C t) (rest : List UInt8) :
    n.item.layout <+: bytes.drop n.offset ∧
      match n.item with
      | .union _ _ => ∀ tag : UInt8, n.alternatives ≤ tag.toNat →
          StopsAt limit slot (bytes.take n.offset ++ tag :: rest) (n.offset + 1)
            (.invalidTag tag n.alternatives)
      | .bool _ => ∀ value : UInt8, 2 ≤ value.toNat →
          StopsAt limit slot (bytes.take n.offset ++ value :: rest) (n.offset + 1)
            (.invalidBool value)
      | .text s => ∀ content : List UInt8, content.length = s.utf8ByteSize →
          (∀ other : String, utf8Bytes other ≠ content) →
          StopsAt limit slot (bytes.take (n.offset + 1) ++ (content ++ rest))
            (n.offset + 1 + content.length) (.invalidUtf8 "text")
      | _ => True := by
  have lies : n.item.layout <+: bytes.drop n.offset := by
    obtain ⟨rfl, -⟩ := toBytes_eq_ok_iff_spans.mp written
    exact (nodes_lie v n found).2
  refine ⟨lies, ?_⟩
  cases item : n.item with
  | union d payload =>
    intro tag unknown
    refine stopsAt_of_spoiled [tag] written found ?_ slot
    rw [item]
    exact .tag unknown ⟨rfl, rfl⟩
  | bool b =>
    intro value neither
    refine stopsAt_of_spoiled [value] written found ?_ slot
    rw [item]
    exact .bool neither ⟨rfl, rfl⟩
  | text s =>
    intro content sized unspelled
    -- The count in front of the text is as it was written.
    have counted : bytes.take (n.offset + 1) =
        bytes.take n.offset ++ [UInt8.ofNat s.utf8ByteSize] := by
      obtain ⟨behind, split⟩ := lies
      rw [List.take_add, ← split, item]
      rfl
    rw [counted, List.append_assoc, Nat.add_assoc, Nat.add_comm 1]
    refine stopsAt_of_spoiled (UInt8.ofNat s.utf8ByteSize :: content) written found ?_ slot
    rw [item]
    exact .text sized unspelled ⟨rfl, rfl⟩
  | number k bits => trivial
  | sequence elements => trivial
  | composite fields => trivial

/-- In a sequence of a flagged record and a text, the tag of the text, the flag and the text are
damaged in turn, with nothing, with little and with more than there was behind. -/
theorem damage_found_in_place_sample :
    let v : Value sample (.seq (.oneOf2 (.named .cond) .text)) :=
      .seq (.ofList [.oneOf 0 (Sample.cond true [7]), .oneOf 1 (.text "é")])
    v.toBytesWith { maxDepth := 4 } = .ok [2, 0, 1, 1, 7, 0, 1, 2, 195, 169] ∧
      StopsAt 4 v [2, 0, 1, 1, 7, 0, 2] 7 (.invalidTag 2 2) ∧
      StopsAt 4 v [2, 0, 9, 5] 3 (.invalidBool 9) ∧
      StopsAt 4 v [2, 0, 1, 1, 7, 0, 1, 2, 195, 40, 0, 0] 10 (.invalidUtf8 "text") := by
  intro v
  have written : v.toBytesWith { maxDepth := 4 } = .ok [2, 0, 1, 1, 7, 0, 1, 2, 195, 169] := rfl
  have unspelled : ∀ other, utf8Bytes other ≠ [195, 40] := fromUTF8?_eq_none_iff.mp (by decide)
  have tag :
      { item := .union 1 (.text "é"), alternatives := 2, levels := 1, offset := 6 } ∈ v.nodes :=
    .tail _ (.tail _ (.tail _ (.tail _ (.tail _ (.tail _ (.head _))))))
  have flag : { item := .bool true, levels := 3, offset := 2 } ∈ v.nodes :=
    .tail _ (.tail _ (.tail _ (.head _)))
  have text : { item := .text "é", levels := 2, offset := 7 } ∈ v.nodes :=
    .tail _ (.tail _ (.tail _ (.tail _ (.tail _ (.tail _ (.tail _ (.head _)))))))
  refine ⟨written, ?_, ?_, ?_⟩
  · exact (damage_found_in_place written tag v []).2 2 (by decide)
  · exact (damage_found_in_place written flag v [5]).2 9 (by decide)
  · exact (damage_found_in_place written text v [0, 0]).2 [195, 40] rfl unspelled

end Data

end FlatCodec
