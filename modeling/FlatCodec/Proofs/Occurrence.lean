import FlatCodec.Sample
import FlatCodec.Value

namespace FlatCodec

def Field.type {ν : Type} : Field ν → Ty ν
  | visited t => t
  | hidden t => t
  | flagged t => t

namespace Catalogue

variable (C : Catalogue)

/-- One part occurs in another: as that part itself, or inside what it is built from. Names are
followed into their declarations, recursive ones too. -/
inductive Occurs (q : Part C.Name) : Part C.Name → Prop where
  | here : Occurs q q
  | elements {t} (h : Occurs q (.many t)) : Occurs q (.one (.seq t))
  | element {t} (h : Occurs q (.one t)) : Occurs q (.many t)
  | boxed {t} (h : Occurs q (.one t)) : Occurs q (.one (.box t))
  | present {t} (h : Occurs q (.one t)) : Occurs q (.one (.option t))
  | oneOf {k alternatives} (i) (h : Occurs q (.one (alternatives i))) :
      Occurs q (.one (.oneOf k alternatives))
  | declared {n} (h : Occurs q (.body (C.decl n))) : Occurs q (.one (.named n))
  | record {fs} (h : Occurs q (.fields fs)) : Occurs q (.body (.record fs))
  | union {k alternatives} (i) (h : Occurs q (.one (alternatives i))) :
      Occurs q (.body (.union k alternatives))
  | uniform {n t} (h : Occurs q (.one t)) : Occurs q (.body (.uniform n t))
  | first {f fs} (h : Occurs q (.one f.type)) : Occurs q (.fields (f :: fs))
  | later {f fs} (h : Occurs q (.fields fs)) : Occurs q (.fields (f :: fs))

/-- Every field of every record that occurs in a part is shown to a visitor. -/
def AllVisited (p : Part C.Name) : Prop :=
  ∀ f fs, C.Occurs (.fields (f :: fs)) p → ∃ t, f = .visited t

variable {C} {p q : Part C.Name}

theorem Occurs.trans {s : Part C.Name} (found : C.Occurs s q) (h : C.Occurs q p) :
    C.Occurs s p := by
  induction h with
  | here => exact found
  | elements _ ih => exact .elements ih
  | element _ ih => exact .element ih
  | boxed _ ih => exact .boxed ih
  | present _ ih => exact .present ih
  | oneOf i _ ih => exact .oneOf i ih
  | declared _ ih => exact .declared ih
  | record _ ih => exact .record ih
  | union i _ ih => exact .union i ih
  | uniform _ ih => exact .uniform ih
  | first _ ih => exact .first ih
  | later _ ih => exact .later ih

theorem allVisited_bool : C.AllVisited (.one .bool) := by
  intro f fs inside
  cases inside

theorem allVisited_number (k : Number) : C.AllVisited (.one (.number k)) := by
  intro f fs inside
  cases inside

theorem AllVisited.seq {t : Ty C.Name} (each : C.AllVisited (.one t)) :
    C.AllVisited (.one (.seq t)) := by
  intro f fs inside
  cases inside with
  | elements inside =>
    cases inside with
    | element inside => exact each f fs inside

/-- Fields lie at the end of a record's own list. Unless that record is where the search began,
some declared name with it occurs too. -/
theorem Occurs.declared_of_fields {fs : List (Field C.Name)} (h : C.Occurs (.fields fs) p) :
    (∃ gs, (p = .fields gs ∨ p = .body (.record gs)) ∧ fs <:+ gs) ∨
      ∃ n gs, C.decl n = .record gs ∧ fs <:+ gs ∧ C.Occurs (.one (.named n)) p := by
  -- From outside a record only the second case can come, and it is carried along.
  have carry {a b : Part C.Name} (into : ∀ q, C.Occurs q a → C.Occurs q b)
      (h : ∃ n gs, C.decl n = .record gs ∧ fs <:+ gs ∧ C.Occurs (.one (.named n)) a) :
      ∃ n gs, C.decl n = .record gs ∧ fs <:+ gs ∧ C.Occurs (.one (.named n)) b := by
    obtain ⟨n, gs, declared, at_end, inside⟩ := h
    exact ⟨n, gs, declared, at_end, into _ inside⟩
  induction h with
  | here => exact .inl ⟨fs, .inl rfl, List.suffix_rfl⟩
  | elements _ ih => exact .inr (carry (fun _ => .elements) (by simpa using ih))
  | element _ ih => exact .inr (carry (fun _ => .element) (by simpa using ih))
  | boxed _ ih => exact .inr (carry (fun _ => .boxed) (by simpa using ih))
  | present _ ih => exact .inr (carry (fun _ => .present) (by simpa using ih))
  | oneOf i _ ih => exact .inr (carry (fun _ => .oneOf i) (by simpa using ih))
  | @declared n _ ih =>
    obtain ⟨gs, begun, at_end⟩ | inside := ih
    · exact .inr ⟨n, gs, by simpa using begun, at_end, .here⟩
    · exact .inr (carry (fun _ => .declared) inside)
  | record _ ih =>
    obtain ⟨gs, begun, at_end⟩ | inside := ih
    · exact .inl ⟨gs, .inr (by simpa using begun), at_end⟩
    · exact .inr (carry (fun _ => .record) inside)
  | union i _ ih => exact .inr (carry (fun _ => .union i) (by simpa using ih))
  | uniform _ ih => exact .inr (carry (fun _ => .uniform) (by simpa using ih))
  | first _ ih => exact .inr (carry (fun _ => .first) (by simpa using ih))
  | @later f gs' _ ih =>
    obtain ⟨gs, begun, at_end⟩ | inside := ih
    · obtain rfl : gs' = gs := by simpa using begun
      exact .inl ⟨_, .inl rfl, at_end.trans (List.suffix_cons f gs')⟩
    · exact .inr (carry (fun _ => .later) inside)

end Catalogue

namespace Sample

def masked (number : BitVec 16) (hidden shown : String) : Value sample (.named .masked) :=
  .named (.record (.visited (.number _ number)
    (.hidden (.text hidden) (.visited (.text shown) .done))))

def cond (flag : Bool) (body : List (BitVec 16)) : Value sample (.named .cond) :=
  .named (.record (.flagged flag (.seq (.ofList (body.map (.number _)))) .done))

theorem visited_of_mem {n : Name} (hm : n ≠ .masked) (hc : n ≠ .cond)
    {gs : List (Field Name)} (declared : decl n = .record gs)
    {f : Field Name} (h : f ∈ gs) : ∃ t, f = .visited t := by
  have visited {ts : List (Ty Name)} (listed : all ts = .record gs) : ∃ t, f = .visited t := by
    obtain rfl : ts.map .visited = gs := by simpa [all] using listed
    obtain ⟨t, -, rfl⟩ := List.mem_map.mp h
    exact ⟨t, rfl⟩
  cases n with
  | masked => exact absurd rfl hm
  | cond => exact absurd rfl hc
  | command | shape | expr | solo | wide => cases declared
  | _ => exact visited declared

end Sample

/-- Among the sample types only `masked` and `cond` have fields that may go unvisited. -/
theorem sample_allVisited_iff (t : Ty Sample.Name) :
    sample.AllVisited (.one t) ↔
      ¬ sample.Occurs (.one (.named .masked)) (.one t) ∧
        ¬ sample.Occurs (.one (.named .cond)) (.one t) := by
  refine ⟨?_, ?_⟩
  · intro all
    have masked_hides : sample.Occurs (.fields [.hidden .text, .visited .text])
        (.one (.named .masked)) := .declared (.record (.later .here))
    have cond_flags : sample.Occurs (.fields [.flagged (.seq Sample.uint16)])
        (.one (.named .cond)) := .declared (.record .here)
    refine ⟨?_, ?_⟩
    · intro inside
      obtain ⟨u, h⟩ := all _ _ (masked_hides.trans inside)
      cases h
    · intro inside
      obtain ⟨u, h⟩ := all _ _ (cond_flags.trans inside)
      cases h
  · intro spared f fs inside
    obtain ⟨gs, begun, -⟩ | ⟨n, gs, declared, at_end, found⟩ := inside.declared_of_fields
    · simp at begun
    · have hm : n ≠ .masked := by
        intro h
        exact spared.1 (h ▸ found)
      have hc : n ≠ .cond := by
        intro h
        exact spared.2 (h ▸ found)
      exact Sample.visited_of_mem hm hc declared (at_end.mem List.mem_cons_self)

end FlatCodec
