import FlatCodec.Catalogue

namespace FlatCodec

/-- The parts a value is built from: a single value, the elements of a sequence, the fields
of a record, what a name stands for. -/
inductive Part (ν : Type) where
  | one (t : Ty ν)
  | many (t : Ty ν)
  | fields (fs : List (Field ν))
  | body (d : Decl ν)

/-- Well-typed data for each part. Keeping all parts in one family makes every function on
values a single structural recursion. A complete value is also the slot that decoding fills. -/
inductive Data (C : Catalogue) : Part C.Name → Type where
  | number (k : Number) (bits : k.Bits) : Data C (.one (.number k))
  | bool (b : Bool) : Data C (.one .bool)
  | text (s : String) : Data C (.one .text)
  | unit : Data C (.one .unit)
  | seq {t} (elements : Data C (.many t)) : Data C (.one (.seq t))
  | box {t} (content : Data C (.one t)) : Data C (.one (.box t))
  | absent {t} : Data C (.one (.option t))
  | present {t} (content : Data C (.one t)) : Data C (.one (.option t))
  | oneOf {k alternatives} (i : Fin (k + 1)) (payload : Data C (.one (alternatives i))) :
      Data C (.one (.oneOf k alternatives))
  | named {n} (content : Data C (.body (C.decl n))) : Data C (.one (.named n))
  | nil {t} : Data C (.many t)
  | cons {t} (head : Data C (.one t)) (tail : Data C (.many t)) : Data C (.many t)
  | done : Data C (.fields [])
  | visited {t fs} (value : Data C (.one t)) (rest : Data C (.fields fs)) :
      Data C (.fields (.visited t :: fs))
  | hidden {t fs} (value : Data C (.one t)) (rest : Data C (.fields fs)) :
      Data C (.fields (.hidden t :: fs))
  | flagged {t fs} (flag : Bool) (value : Data C (.one t)) (rest : Data C (.fields fs)) :
      Data C (.fields (.flagged t :: fs))
  | record {fs} (fields : Data C (.fields fs)) : Data C (.body (.record fs))
  | union {k alternatives} (i : Fin (k + 1)) (payload : Data C (.one (alternatives i))) :
      Data C (.body (.union k alternatives))
  | uniform {n t} (index : Nat) (payload : Data C (.one t)) : Data C (.body (.uniform n t))

abbrev Value (C : Catalogue) (t : Ty C.Name) : Type := Data C (.one t)

abbrev Elements (C : Catalogue) (t : Ty C.Name) : Type := Data C (.many t)

/-- A value of whatever type. -/
abbrev AnyValue (C : Catalogue) : Type := (t : Ty C.Name) × Value C t

namespace Data

variable {C : Catalogue}

def ofList {t : Ty C.Name} : List (Value C t) → Elements C t
  | [] => nil
  | v :: vs => cons v (ofList vs)

end Data

end FlatCodec
