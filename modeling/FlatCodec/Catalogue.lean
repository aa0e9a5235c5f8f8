import FlatCodec.Ty

namespace FlatCodec

/-- Declared types by name. Declarations may refer to each other and to themselves; `rank`
orders them so that every initial value is finite, and a uniform union takes every tag. -/
structure Catalogue where
  Name : Type
  decl : Name → Decl Name
  rank : Name → Nat
  settled : ∀ n, (decl n).rank rank ≤ rank n
  ample : ∀ n, (decl n).Ample

/-- The type of the payload that an index names. A uniform union has the same for every index; where
an index names no alternative there is none. -/
def Decl.payload? {ν : Type} : Decl ν → Nat → Option (Ty ν)
  | record _, _ => none
  | union k alternatives, i => if h : i < k + 1 then some (alternatives ⟨i, h⟩) else none
  | uniform _ t, _ => some t

namespace Catalogue

variable (C : Catalogue)

/-- A box has the category of its content. -/
def category : Ty C.Name → Category
  | .number _ => .scalar
  | .bool => .scalar
  | .text => .text
  | .unit => .composite
  | .seq _ => .sequence
  | .box t => category t
  | .option _ => .taggedUnion
  | .oneOf .. => .taggedUnion
  | .named n => (C.decl n).category

/-- The number of alternatives of a union; none for every other type, a boxed union
included, since a box is not itself a union. -/
def alternatives : Ty C.Name → Nat
  | .option _ => 2
  | .oneOf k _ => k + 1
  | .named n => (C.decl n).alternatives
  | _ => 0

def payload? : Ty C.Name → Nat → Option (Ty C.Name)
  | .option _, 0 => some .unit
  | .option t, 1 => some t
  | .oneOf k alternatives, i => if h : i < k + 1 then some (alternatives ⟨i, h⟩) else none
  | .named n, i => (C.decl n).payload? i
  | _, _ => none

/-- A union that takes every index, whatever the number of its alternatives. -/
def Uniform (t : Ty C.Name) : Prop := ∃ n k u, t = .named n ∧ C.decl n = .uniform k u

end Catalogue

end FlatCodec
