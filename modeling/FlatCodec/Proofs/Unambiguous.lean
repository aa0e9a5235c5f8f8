import FlatCodec.Proofs.Legible
import FlatCodec.Proofs.Observation
import FlatCodec.Proofs.Wordless

namespace FlatCodec

open Token

/-- What the view of a part is printed as. Elements are followed by the bracket that ends them,
since their number shows nowhere else. -/
def Part.tokens {ν : Type} : (p : Part ν) → p.View → List Token
  | .one _, i => i.tokens
  | .many _, is => Item.tokensAll is ++ [.closeSequence]
  | .fields _, is => Item.tokensAll is
  | .body _, i => i.tokens

namespace Data

variable {C : Catalogue}

theorem integer_of_wordless {k : Number} (wordless : C.Wordless (.one (.number k)))
    (bits : k.Bits) : ∃ z, k.integer? bits = some z := by
  cases k with
  | unsigned size => exact ⟨_, rfl⟩
  | signed size => exact ⟨_, rfl⟩
  | float precision => exact absurd wordless (Catalogue.not_wordless_float precision)

theorem legible_number {k : Number} (wordless : C.Wordless (.one (.number k))) (bits : k.Bits) :
    (Token.word (k.text bits)).Legible := by
  obtain ⟨z, whole⟩ := integer_of_wordless wordless bits
  exact ⟨z, Number.text_spells whole⟩

theorem eq_of_number_text {k : Number} (wordless : C.Wordless (.one (.number k)))
    {bits bits' : k.Bits} (same : k.text bits = k.text bits') : bits = bits' := by
  obtain ⟨z, whole⟩ := integer_of_wordless wordless bits
  obtain ⟨z', whole'⟩ := integer_of_wordless wordless bits'
  have spelled := Number.text_spells whole
  have spelled' := Number.text_spells whole'
  rw [← same] at spelled'
  obtain rfl := spelled.unique spelled'
  exact Number.integer?_inj whole whole'

theorem legible_bool (b : Bool) : (Token.word (if b then "1" else "0")).Legible := by
  cases b with
  | false => exact ⟨0, Decimal.spells_natCast 0⟩
  | true => exact ⟨1, Decimal.spells_natCast 1⟩

theorem eq_of_bool_text {b b' : Bool}
    (same : (if b then "1" else "0") = if b' then "1" else "0") : b = b' := by
  cases b <;> cases b' <;> simp at same ⊢

/-- Where there are no texts and no floating-point numbers, every token is legible. -/
theorem tokens_legible {p : Part C.Name} (wordless : C.Wordless p) (v : Data C p) :
    ∀ t ∈ p.tokens v.view, t.Legible := by
  induction v with
  | number k bits => exact List.forall_mem_singleton.mpr (legible_number wordless bits)
  | bool b => exact List.forall_mem_singleton.mpr (legible_bool b)
  | text s => exact absurd wordless Catalogue.not_wordless_text
  | unit => exact List.forall_mem_cons.mpr ⟨trivial, List.forall_mem_singleton.mpr trivial⟩
  | seq vs ih => exact List.forall_mem_cons.mpr ⟨trivial, ih (wordless.inside (.elements .here))⟩
  | box v ih => exact ih (wordless.inside (.boxed .here))
  | absent =>
    have empty : ∀ t ∈ [Token.openComposite, Token.closeComposite], t.Legible :=
      List.forall_mem_cons.mpr ⟨trivial, List.forall_mem_singleton.mpr trivial⟩
    exact List.forall_mem_cons.mpr ⟨trivial, empty⟩
  | present v ih =>
    exact List.forall_mem_cons.mpr ⟨trivial, ih (wordless.inside (.present .here))⟩
  | oneOf i v ih =>
    exact List.forall_mem_cons.mpr ⟨trivial, ih (wordless.inside (.oneOf i .here))⟩
  | named v ih => exact ih (wordless.inside (.declared .here))
  | nil => exact List.forall_mem_singleton.mpr trivial
  | cons v vs hv hvs =>
    have head := hv (wordless.inside (.element .here))
    show ∀ t ∈ v.view.tokens ++ Item.tokensAll vs.view ++ [.closeSequence], t.Legible
    rw [List.append_assoc]
    exact List.forall_mem_append.mpr ⟨head, hvs wordless⟩
  | done =>
    intro t found
    cases found
  | visited v vs hv hvs =>
    have value := hv (wordless.inside (.first .here))
    exact List.forall_mem_append.mpr ⟨value, hvs (wordless.inside (.later .here))⟩
  | hidden v vs hv hvs => exact hvs (wordless.inside (.later .here))
  | flagged b v vs hv hvs =>
    have value := hv (wordless.inside (.first .here))
    have rest := hvs (wordless.inside (.later .here))
    cases b with
    | false => exact List.forall_mem_cons.mpr ⟨legible_bool false, rest⟩
    | true =>
      have behind : ∀ t ∈ v.view.tokens ++ Item.tokensAll vs.view, t.Legible :=
        List.forall_mem_append.mpr ⟨value, rest⟩
      exact List.forall_mem_cons.mpr ⟨legible_bool true, behind⟩
  | record vs ih =>
    have fields := ih (wordless.inside (.record .here))
    exact List.forall_mem_cons.mpr
      ⟨trivial, List.forall_mem_append.mpr ⟨fields, List.forall_mem_singleton.mpr trivial⟩⟩
  | union i v ih =>
    exact List.forall_mem_cons.mpr ⟨trivial, ih (wordless.inside (.union i .here))⟩
  | uniform i v ih =>
    exact List.forall_mem_cons.mpr ⟨trivial, ih (wordless.inside (.uniform .here))⟩

/-- Where the elements of one sequence go on, those of another with the same text do not end. -/
theorem not_ends_here {t : Ty C.Name} (wordless : C.Wordless (.one t)) (v : Value C t)
    (ts : List Token) (x y : List Char) :
    spelled (v.view.tokens ++ ts ++ [.closeSequence]) ++ x ≠ spelled [.closeSequence] ++ y := by
  intro same
  obtain ⟨first, others, begun, going_on⟩ := v.view.tokens_head
  have legible : first.Legible := by
    apply tokens_legible wordless v
    show first ∈ v.view.tokens
    rw [begun]
    exact List.mem_cons_self
  have bracket : Token.closeSequence.Legible := trivial
  rw [begun] at same
  exact going_on (eq_of_spelled_append legible bracket same).1

/-- Whatever is printed behind them, parts of one type that are printed alike look alike, and what
follows is the same. -/
theorem view_eq_of_spelled {p : Part C.Name} (wordless : C.Wordless p) (v w : Data C p)
    {x y : List Char}
    (same : spelled (p.tokens v.view) ++ x = spelled (p.tokens w.view) ++ y) :
    v.view = w.view ∧ x = y := by
  -- The type says which token comes next wherever it leaves no choice; only where it does are tokens
  -- compared.
  induction v generalizing x y with
  | number k bits =>
    cases w with | number _ bits' =>
    obtain ⟨token, rest⟩ := eq_of_spelled_append (legible_number wordless bits)
      (legible_number wordless bits') same
    obtain rfl := eq_of_number_text wordless (Token.word.inj token)
    exact ⟨rfl, rest⟩
  | bool b =>
    cases w with | bool b' =>
    obtain ⟨token, rest⟩ := eq_of_spelled_append (legible_bool b) (legible_bool b') same
    obtain rfl := eq_of_bool_text (Token.word.inj token)
    exact ⟨rfl, rest⟩
  | text s => exact absurd wordless Catalogue.not_wordless_text
  | unit =>
    cases w
    exact ⟨rfl, List.append_cancel_left same⟩
  | seq vs ih =>
    cases w with | seq ws =>
    obtain ⟨elements, rest⟩ := ih (wordless.inside (.elements .here)) ws (spelled_cancel same)
    exact ⟨congrArg Item.sequence elements, rest⟩
  | box v ih => cases w with | box w => exact ih (wordless.inside (.boxed .here)) w same
  | absent =>
    cases w with
    | absent => exact ⟨rfl, List.append_cancel_left same⟩
    | present w => exact absurd (eq_of_spelled_tag same).1 (by decide)
  | present v ih =>
    cases w with
    | absent => exact absurd (eq_of_spelled_tag same).1 (by decide)
    | present w =>
      obtain ⟨payload, rest⟩ := ih (wordless.inside (.present .here)) w (spelled_cancel same)
      exact ⟨congrArg (Item.union 1) payload, rest⟩
  | oneOf i v ih =>
    cases w with | oneOf j w =>
    obtain ⟨tag, rest⟩ := eq_of_spelled_tag same
    obtain rfl := Fin.ext tag
    obtain ⟨payload, rest⟩ := ih (wordless.inside (.oneOf i .here)) w rest
    exact ⟨congrArg (Item.union i) payload, rest⟩
  | named v ih => cases w with | named w => exact ih (wordless.inside (.declared .here)) w same
  | nil =>
    cases w with
    | nil => exact ⟨rfl, List.append_cancel_left same⟩
    | cons w ws => exact absurd same.symm (not_ends_here (wordless.inside (.element .here)) w _ y x)
  | cons v vs hv hvs =>
    cases w with
    | nil => exact absurd same (not_ends_here (wordless.inside (.element .here)) v _ x y)
    | cons w ws =>
      obtain ⟨head, rest⟩ := hv (wordless.inside (.element .here)) w (spelled_elements same)
      obtain ⟨tail, rest⟩ := hvs wordless ws rest
      exact ⟨congrArg₂ List.cons head tail, rest⟩
  | done =>
    cases w
    exact ⟨rfl, same⟩
  | visited v vs hv hvs =>
    cases w with | visited w ws =>
    obtain ⟨value, rest⟩ := hv (wordless.inside (.first .here)) w (spelled_fields same)
    obtain ⟨others, rest⟩ := hvs (wordless.inside (.later .here)) ws rest
    exact ⟨congrArg₂ List.cons value others, rest⟩
  | hidden v vs hv hvs =>
    cases w with | hidden w ws => exact hvs (wordless.inside (.later .here)) ws same
  | flagged b v vs hv hvs =>
    cases w with | flagged b' w ws =>
    cases b <;> cases b'
    · obtain ⟨others, rest⟩ := hvs (wordless.inside (.later .here)) ws (spelled_cancel same)
      exact ⟨congrArg (List.cons (Item.bool false)) others, rest⟩
    · exact absurd (eq_of_spelled_append (legible_bool false) (legible_bool true) same).1 (by simp)
    · exact absurd (eq_of_spelled_append (legible_bool true) (legible_bool false) same).1 (by simp)
    · have behind : spelled (v.view.tokens ++ Item.tokensAll vs.view) ++ x =
          spelled (w.view.tokens ++ Item.tokensAll ws.view) ++ y := spelled_cancel same
      obtain ⟨value, rest⟩ := hv (wordless.inside (.first .here)) w (spelled_fields behind)
      obtain ⟨others, rest⟩ := hvs (wordless.inside (.later .here)) ws rest
      exact ⟨congrArg (List.cons (Item.bool true)) (congrArg₂ List.cons value others), rest⟩
  | record vs ih =>
    cases w with | record ws =>
    obtain ⟨fields, rest⟩ :=
      ih (wordless.inside (.record .here)) ws (spelled_fields (spelled_cancel same))
    exact ⟨congrArg Item.composite fields, List.append_cancel_left rest⟩
  | union i v ih =>
    cases w with | union j w =>
    obtain ⟨tag, rest⟩ := eq_of_spelled_tag same
    obtain rfl := Fin.ext tag
    obtain ⟨payload, rest⟩ := ih (wordless.inside (.union i .here)) w rest
    exact ⟨congrArg (Item.union i) payload, rest⟩
  | uniform i v ih =>
    cases w with | uniform j w =>
    obtain ⟨rfl, rest⟩ := eq_of_spelled_tag same
    obtain ⟨payload, rest⟩ := ih (wordless.inside (.uniform .here)) w rest
    exact ⟨congrArg (Item.union i) payload, rest⟩

variable {t : Ty C.Name}

theorem agrees_of_trace_append (wordless : C.Wordless (.one t)) {v w : Value C t} {r r' : String}
    (same : v.trace ++ r = w.trace ++ r') : v.Agrees w ∧ r = r' := by
  have characters : spelled v.view.tokens ++ r.toList = spelled w.view.tokens ++ r'.toList := by
    rw [← Item.trace_toList, ← Item.trace_toList, ← String.toList_append, ← String.toList_append]
    exact congrArg String.toList same
  obtain ⟨view, rest⟩ := view_eq_of_spelled wordless v w characters
  exact ⟨agrees_iff_view_eq.mpr view, String.toList_inj.mp rest⟩

/-- Traces are unambiguous where no text and no floating-point number is involved. Two values whose
traces begin one text agree in all that is visited, and what follows them is the same; so values
with one trace agree, and no trace goes on from another. Integers are printed in plain decimal. -/
theorem traces_unambiguous (wordless : C.Wordless (.one t)) :
    (∀ (v w : Value C t) (r r' : String), v.trace ++ r = w.trace ++ r' → v.Agrees w ∧ r = r') ∧
    (∀ v w : Value C t, v.trace = w.trace → v.Agrees w) ∧
    (∀ v w : Value C t, v.trace.toList <+: w.trace.toList → v.trace = w.trace) ∧
    ∀ (k : Number) (bits : k.Bits) (z : Int), k.integer? bits = some z →
      Decimal.Spells (k.text bits) z ∧
        (.number k bits : Value C (.number k)).trace = k.text bits ++ " " := by
  refine ⟨?_, ?_, ?_, ?_⟩
  · intro v w r r' same
    exact agrees_of_trace_append wordless same
  · intro v w same
    exact (agrees_of_trace_append wordless (congrArg (· ++ "") same)).1
  · intro v w begins
    obtain ⟨more, whole⟩ := begins
    have same : v.trace ++ String.ofList more = w.trace ++ "" := by
      apply String.toList_inj.mp
      rw [String.toList_append, String.toList_ofList, whole, String.append_empty]
    obtain ⟨-, nothing⟩ := agrees_of_trace_append wordless same
    rw [nothing, String.append_empty, String.append_empty] at same
    exact same
  · intro k bits z whole
    refine ⟨Number.text_spells whole, ?_⟩
    apply String.toList_inj.mp
    rw [trace, Item.trace_toList, String.toList_append]
    exact List.append_nil _

/-- In a type put together from all the names without texts, two lists that differ only in the body
behind an unset flag have one trace and agree; and the least byte with a sign has a minus sign. -/
theorem traces_unambiguous_sample :
    let mixed : Ty Sample.Name := .oneOf4 (.named .list) (.seq (.named .cond))
      (.box (.named .shell))
      (.option (.oneOf3 (.named .pair) (.named .nothing) (.named .wide)))
    let listed (body : List (BitVec 16)) : Value sample mixed :=
      .oneOf 1 (.seq (.ofList [Sample.cond false body, Sample.cond true [300]]))
    sample.Wordless (.one mixed) ∧
    (listed [7]).trace = "#1 [ \x7b 0 \x7d \x7b 1 [ 300 ] \x7d ] " ∧
    ((listed [7]).Agrees (listed []) ∧ (listed [7]).trace = (listed []).trace) ∧
    Decimal.Spells ((Number.signed .one).text 128) (-128) := by
  intro mixed listed
  have wordless : sample.Wordless (.one mixed) := (sample_wordless_iff mixed).mpr (by decide)
  obtain ⟨telling, -, onward, decimal⟩ := traces_unambiguous wordless
  have printed (body : List (BitVec 16)) :
      (listed body).trace = "#1 [ \x7b 0 \x7d \x7b 1 [ 300 ] \x7d ] " := rfl
  refine ⟨wordless, printed [7], ⟨?_, ?_⟩, ?_⟩
  · apply (telling (listed [7]) (listed []) "]" "]" ?_).1
    rw [printed, printed]
  · have whole : (listed [7]).trace.toList ++ [] = (listed []).trace.toList := by
      rw [List.append_nil, printed, printed]
    exact onward _ _ ⟨[], whole⟩
  · exact (decimal (.signed .one) 128 (-128) rfl).1

end Data

end FlatCodec
