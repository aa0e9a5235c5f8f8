import FlatCodec.Value

namespace FlatCodec

namespace Data

variable {C : Catalogue}

/-- Two parts agree when they hold the same in every place a visitor is shown, numbers bit by
bit. Hidden fields may differ, and so may the bodies of flagged fields whose flag is off. -/
inductive Agrees : {p : Part C.Name} → Data C p → Data C p → Prop where
  | number (k bits) : Agrees (.number k bits) (.number k bits)
  | bool (b) : Agrees (.bool b) (.bool b)
  | text (s) : Agrees (.text s) (.text s)
  | unit : Agrees .unit .unit
  | seq {t} {v w : Elements C t} (h : Agrees v w) : Agrees (.seq v) (.seq w)
  | box {t} {v w : Value C t} (h : Agrees v w) : Agrees (.box v) (.box w)
  | absent {t : Ty C.Name} : Agrees (@Data.absent C t) .absent
  | present {t} {v w : Value C t} (h : Agrees v w) : Agrees (.present v) (.present w)
  | oneOf {k} {alternatives : Fin (k + 1) → Ty C.Name} (i) {v w : Value C (alternatives i)}
      (h : Agrees v w) : Agrees (@Data.oneOf C k alternatives i v) (.oneOf i w)
  | named {n} {v w : Data C (.body (C.decl n))} (h : Agrees v w) : Agrees (.named v) (.named w)
  | nil {t : Ty C.Name} : Agrees (@Data.nil C t) .nil
  | cons {t} {v w : Value C t} {vs ws : Elements C t} (head : Agrees v w) (tail : Agrees vs ws) :
      Agrees (.cons v vs) (.cons w ws)
  | done : Agrees .done .done
  | visited {t fs} {v w : Value C t} {vs ws : Data C (.fields fs)} (value : Agrees v w)
      (rest : Agrees vs ws) : Agrees (.visited v vs) (.visited w ws)
  | hidden {t fs} (v w : Value C t) {vs ws : Data C (.fields fs)} (rest : Agrees vs ws) :
      Agrees (.hidden v vs) (.hidden w ws)
  | on {t fs} {v w : Value C t} {vs ws : Data C (.fields fs)} (value : Agrees v w)
      (rest : Agrees vs ws) : Agrees (.flagged true v vs) (.flagged true w ws)
  | off {t fs} (v w : Value C t) {vs ws : Data C (.fields fs)} (rest : Agrees vs ws) :
      Agrees (.flagged false v vs) (.flagged false w ws)
  | record {fs} {v w : Data C (.fields fs)} (h : Agrees v w) : Agrees (.record v) (.record w)
  | union {k} {alternatives : Fin (k + 1) → Ty C.Name} (i) {v w : Value C (alternatives i)}
      (h : Agrees v w) : Agrees (@Data.union C k alternatives i v) (.union i w)
  | uniform {n t} (i) {v w : Value C t} (h : Agrees v w) :
      Agrees (@Data.uniform C n t i v) (.uniform i w)

end Data

end FlatCodec
