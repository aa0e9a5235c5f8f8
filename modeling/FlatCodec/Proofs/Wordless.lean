import FlatCodec.Proofs.Occurrence

namespace FlatCodec

namespace Catalogue

variable {C : Catalogue} {p q : Part C.Name}

/-- Neither a text nor a floating-point number occurs in a part, not even where none is visited. -/
def Wordless (C : Catalogue) (p : Part C.Name) : Prop :=
  ∀ q, C.Occurs q p → q ≠ .one .text ∧ ∀ f, q ≠ .one (.number (.float f))

theorem Occurs.of_mem {f : Field C.Name} {fs : List (Field C.Name)} (found : f ∈ fs) :
    C.Occurs (.one f.type) (.fields fs) := by
  induction fs with
  | nil => cases found
  | cons g fs ih =>
    rcases List.mem_cons.mp found with rfl | later
    · exact .first .here
    · exact .later (ih later)

theorem Wordless.inside (wordless : C.Wordless p) (found : C.Occurs q p) : C.Wordless q :=
  fun s inner => wordless s (inner.trans found)

theorem not_wordless_text : ¬ C.Wordless (.one .text) :=
  fun wordless => (wordless _ .here).1 rfl

theorem not_wordless_float (f : Precision) : ¬ C.Wordless (.one (.number (.float f))) :=
  fun wordless => (wordless _ .here).2 f rfl

end Catalogue

section Clear

variable {ν : Type}

/-- The type is put together without texts and floating-point numbers, and no name is used but those
that are allowed. -/
def Ty.Clear (allowed : ν → Prop) : Ty ν → Prop
  | number (.float _) => False
  | number _ => True
  | bool => True
  | text => False
  | unit => True
  | seq t => t.Clear allowed
  | box t => t.Clear allowed
  | option t => t.Clear allowed
  | oneOf _ alternatives => ∀ i, (alternatives i).Clear allowed
  | named n => allowed n

instance Ty.decidableClear (allowed : ν → Prop) [DecidablePred allowed] :
    (t : Ty ν) → Decidable (t.Clear allowed)
  | number (.unsigned _) => isTrue trivial
  | number (.signed _) => isTrue trivial
  | number (.float _) => isFalse id
  | bool => isTrue trivial
  | text => isFalse id
  | unit => isTrue trivial
  | seq t => decidableClear allowed t
  | box t => decidableClear allowed t
  | option t => decidableClear allowed t
  | oneOf k alternatives =>
    have (i : Fin (k + 1)) : Decidable ((alternatives i).Clear allowed) :=
      decidableClear allowed (alternatives i)
    inferInstanceAs (Decidable (∀ i, (alternatives i).Clear allowed))
  | named n => inferInstanceAs (Decidable (allowed n))

def Decl.Clear (allowed : ν → Prop) : Decl ν → Prop
  | record fields => ∀ f ∈ fields, f.type.Clear allowed
  | union _ alternatives => ∀ i, (alternatives i).Clear allowed
  | uniform _ t => t.Clear allowed

instance (allowed : ν → Prop) [DecidablePred allowed] : DecidablePred (Decl.Clear allowed)
  | .record fields => inferInstanceAs (Decidable (∀ f ∈ fields, f.type.Clear allowed))
  | .union k alternatives =>
    inferInstanceAs (Decidable (∀ i : Fin (k + 1), (alternatives i).Clear allowed))
  | .uniform _ t => inferInstanceAs (Decidable (t.Clear allowed))

def Part.Clear (allowed : ν → Prop) : Part ν → Prop
  | one t => t.Clear allowed
  | many t => t.Clear allowed
  | fields fs => ∀ f ∈ fs, f.type.Clear allowed
  | body d => d.Clear allowed

end Clear

namespace Catalogue

variable {C : Catalogue} {p q : Part C.Name} {allowed : C.Name → Prop}

theorem clear_of_occurs (closed : ∀ n, allowed n → (C.decl n).Clear allowed)
    (inside : C.Occurs q p) (clear : p.Clear allowed) : q.Clear allowed := by
  induction inside with
  | here => exact clear
  | elements _ ih => exact ih clear
  | element _ ih => exact ih clear
  | boxed _ ih => exact ih clear
  | present _ ih => exact ih clear
  | oneOf i _ ih => exact ih (clear i)
  | @declared n _ ih => exact ih (closed n clear)
  | record _ ih => exact ih clear
  | union i _ ih => exact ih (clear i)
  | uniform _ ih => exact ih clear
  | first _ ih => exact ih (clear _ List.mem_cons_self)
  | later _ ih => exact ih fun f found => clear f (List.mem_cons_of_mem _ found)

/-- Where names stand for clear declarations, nothing that is clear has a text or a floating-point
number inside. -/
theorem wordless_of_clear (closed : ∀ n, allowed n → (C.decl n).Clear allowed)
    (clear : p.Clear allowed) : C.Wordless p := by
  intro q inside
  have within := clear_of_occurs closed inside clear
  refine ⟨?_, ?_⟩
  · rintro rfl
    exact within
  · rintro f rfl
    exact within

/-- What has no text and no floating-point number inside is put together without them, if the names
for which that holds are those allowed. -/
theorem clear_of_wordless (found : ∀ n, C.Wordless (.one (.named n)) → allowed n) {t : Ty C.Name}
    (wordless : C.Wordless (.one t)) : t.Clear allowed := by
  induction t with
  | number k =>
    cases k with
    | unsigned size => trivial
    | signed size => trivial
    | float precision => exact not_wordless_float precision wordless
  | bool => trivial
  | text => exact not_wordless_text wordless
  | unit => trivial
  | seq t ih => exact ih (wordless.inside (.elements (.element .here)))
  | box t ih => exact ih (wordless.inside (.boxed .here))
  | option t ih => exact ih (wordless.inside (.present .here))
  | oneOf k alternatives ih => exact fun i => ih i (wordless.inside (.oneOf i .here))
  | named n => exact found n wordless

end Catalogue

namespace Sample

def wordless : List Name := [.pair, .nothing, .shell, .cond, .list, .wide]

theorem decl_clear : ∀ n ∈ wordless, (decl n).Clear (· ∈ wordless) := by
  decide

theorem mem_wordless {n : Name} (none : sample.Wordless (.one (.named n))) : n ∈ wordless := by
  have text {n : Name} (none : sample.Wordless (.one (.named n))) :
      ¬ sample.Occurs (.one .text) (.one (.named n)) := fun inside => (none _ inside).1 rfl
  have float_found : sample.Occurs (.one Sample.float32) (.one (.named .scalars)) := by
    refine .declared (.record (Catalogue.Occurs.of_mem (C := sample) (f := .visited float32) ?_))
    exact List.mem_map_of_mem (by simp)
  have binding_found : sample.Occurs (.one .text) (.one (.named .expr)) :=
    .declared (.union 3 (.declared (.record (.first .here))))
  cases n with
  | pair | nothing | shell | cond | list | wide => decide
  | foo => exact absurd (.declared (.record (.first .here))) (text none)
  | bar => exact absurd (.declared (.record (.first .here))) (text none)
  | triple => exact absurd (.declared (.record (.later (.first .here)))) (text none)
  | node => exact absurd (.declared (.record (.first .here))) (text none)
  | scalars => exact absurd rfl ((none _ float_found).2 .single)
  | binding => exact absurd (.declared (.record (.first .here))) (text none)
  | masked => exact absurd (.declared (.record (.later (.first .here)))) (text none)
  | command => exact absurd (.declared (.union 1 .here)) (text none)
  | shape => exact absurd (.declared (.union 2 .here)) (text none)
  | expr => exact absurd binding_found (text none)
  | solo => exact absurd (.declared (.union 0 .here)) (text none)

end Sample

theorem sample_wordless_iff (t : Ty Sample.Name) :
    sample.Wordless (.one t) ↔ t.Clear (· ∈ Sample.wordless) := by
  refine ⟨?_, ?_⟩
  · exact Catalogue.clear_of_wordless fun _ => Sample.mem_wordless
  · intro clear
    have clear : Part.Clear (· ∈ Sample.wordless) (.one t) := clear
    exact Catalogue.wordless_of_clear Sample.decl_clear clear

end FlatCodec
