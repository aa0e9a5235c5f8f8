import FlatCodec.Limits
import FlatCodec.Number

namespace FlatCodec

/-- The index of the alternative that a union begins with. -/
def first (k : Nat) : Fin (k + 1) := 0

/-- Descriptions of the values that can be encoded, over the names `ν` of declared types. -/
inductive Ty (ν : Type) where
  | number (k : Number)
  | bool
  | text
  /-- The composite without fields. -/
  | unit
  | seq (element : Ty ν)
  /-- Indirection, which leaves no trace in the byte form or in the text. -/
  | box (content : Ty ν)
  /-- A union of `unit`, for absence, and the content. -/
  | option (content : Ty ν)
  /-- An anonymous union; it has at least one alternative, whose initial value is its own. -/
  | oneOf (k : Nat) (alternatives : Fin (k + 1) → Ty ν)
  | named (n : ν)

namespace Ty

variable {ν : Type}

def oneOf2 (a b : Ty ν) : Ty ν := .oneOf 1 fun
  | 0 => a
  | 1 => b

def oneOf3 (a b c : Ty ν) : Ty ν := .oneOf 2 fun
  | 0 => a
  | 1 => b
  | 2 => c

def oneOf4 (a b c d : Ty ν) : Ty ν := .oneOf 3 fun
  | 0 => a
  | 1 => b
  | 2 => c
  | 3 => d

/-- How far down the declarations the initial value of a type is settled, where `rank` says
it for names. Sequences start empty and options absent, so their content does not count. -/
def rank (rankOf : ν → Nat) : Ty ν → Nat
  | box t => t.rank rankOf
  | oneOf k alternatives => (alternatives (first k)).rank rankOf
  | named n => rankOf n + 1
  | _ => 0

end Ty

/-- The structural categories, which alone decide how a value is written and printed. -/
inductive Category where
  | scalar | text | sequence | taggedUnion | composite
  deriving DecidableEq, Repr

/-- One position of a record. -/
inductive Field (ν : Type) where
  /-- Encoded, decoded and printed. -/
  | visited (type : Ty ν)
  /-- Never encoded or printed; decoding leaves it as it is. -/
  | hidden (type : Ty ν)
  /-- A truth value and a body that is visited only where the truth value holds. -/
  | flagged (body : Ty ν)

def Field.rank {ν : Type} (rankOf : ν → Nat) : Field ν → Nat
  | visited t => t.rank rankOf
  | hidden t => t.rank rankOf
  | flagged t => t.rank rankOf

/-- What a name stands for. -/
inductive Decl (ν : Type) where
  | record (fields : List (Field ν))
  /-- A closed union; its first alternative is its initial one. -/
  | union (k : Nat) (alternatives : Fin (k + 1) → Ty ν)
  /-- A union whose alternatives all carry the same payload type. A value may hold an index
  beyond the number of alternatives, or one beyond what a tag byte can say. -/
  | uniform (alternatives : Nat) (payload : Ty ν)

namespace Decl

variable {ν : Type}

def fieldsRank (rankOf : ν → Nat) : List (Field ν) → Nat
  | [] => 0
  | f :: fs => max (f.rank rankOf) (fieldsRank rankOf fs)

def rank (rankOf : ν → Nat) : Decl ν → Nat
  | record fields => fieldsRank rankOf fields
  | union k alternatives => (alternatives (first k)).rank rankOf
  | uniform _ payload => payload.rank rankOf

def category : Decl ν → Category
  | record _ => .composite
  | union .. => .taggedUnion
  | uniform .. => .taggedUnion

/-- A record has no alternatives. -/
def alternatives : Decl ν → Nat
  | record _ => 0
  | union k _ => k + 1
  | uniform n _ => n

/-- A uniform union has more alternatives than a tag byte can name, so it turns no tag away. -/
def Ample : Decl ν → Prop
  | record _ => True
  | union .. => True
  | uniform n _ => maxDiscriminant < n

instance : DecidablePred (@Ample ν)
  | record _ => isTrue trivial
  | union .. => isTrue trivial
  | uniform n _ => inferInstanceAs (Decidable (maxDiscriminant < n))

end Decl

end FlatCodec
