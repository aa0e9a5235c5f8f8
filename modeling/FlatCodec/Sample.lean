import FlatCodec.Catalogue

namespace FlatCodec.Sample

/-- A collection of declared types that uses every kind of declaration: records flat, nested,
recursive, empty, with hidden and with flagged fields, and unions closed, recursive, with a
single alternative and uniform. -/
inductive Name where
  | foo | bar | triple | node | list | scalars | shell | binding | pair | nothing | masked
  | cond | command | shape | expr | solo | wide
  deriving DecidableEq, Repr

abbrev uint8 : Ty Name := .number (.unsigned .one)
abbrev uint16 : Ty Name := .number (.unsigned .two)
abbrev uint32 : Ty Name := .number (.unsigned .four)
abbrev uint64 : Ty Name := .number (.unsigned .eight)
abbrev uint128 : Ty Name := .number (.unsigned .sixteen)
abbrev address : Ty Name := .number (.unsigned .word)
abbrev int8 : Ty Name := .number (.signed .one)
abbrev int16 : Ty Name := .number (.signed .two)
abbrev int32 : Ty Name := .number (.signed .four)
abbrev int64 : Ty Name := .number (.signed .eight)
abbrev int128 : Ty Name := .number (.signed .sixteen)
abbrev offset : Ty Name := .number (.signed .word)
abbrev float32 : Ty Name := .number (.float .single)
abbrev float64 : Ty Name := .number (.float .double)

/-- The fields of a record that visits all of them. -/
def all (ts : List (Ty Name)) : Decl Name := .record (ts.map .visited)

def decl : Name → Decl Name
  | .foo => all [.text, uint16, .seq uint8]
  | .bar => all [.text, .oneOf2 uint8 .text, .named .foo,
      .seq (.oneOf3 (.named .foo) uint8 uint16), .option .text]
  | .triple => all [uint32, .text, .seq uint8]
  | .node => all [.text, .seq (.box (.named .node))]
  | .list => all [int32, .option (.box (.named .list))]
  | .scalars => all [uint8, uint16, uint32, uint64, uint128, address,
      int8, int16, int32, int64, int128, offset, float32, float64, .bool]
  | .shell => all [.unit, .named .nothing, .named .pair, .seq (.named .nothing)]
  | .binding => all [.text, .box (.named .expr), .option (.named .pair)]
  | .pair => all [uint16, .bool]
  | .nothing => all []
  | .masked => .record [.visited uint16, .hidden .text, .visited .text]
  | .cond => .record [.flagged (.seq uint16)]
  | .command => .union 2 fun
    | 0 => .unit
    | 1 => .text
    | 2 => .named .triple
  | .shape => .union 4 fun
    | 0 => .unit
    | 1 => float32
    | 2 => .text
    | 3 => .named .pair
    | 4 => .named .masked
  | .expr => .union 3 fun
    | 0 => int64
    | 1 => .box (.named .expr)
    | 2 => .seq (.named .expr)
    | 3 => .named .binding
  | .solo => .union 0 fun _ => .text
  | .wide => .uniform 300 uint8

/-- Only records begin with the initial values of other declared types. -/
def rank : Name → Nat
  | .bar | .shell | .binding => 1
  | _ => 0

end Sample

/-- The sample types as a catalogue. -/
abbrev sample : Catalogue where
  Name := Sample.Name
  decl := Sample.decl
  rank := Sample.rank
  settled n := by cases n <;> decide
  ample n := by cases n <;> decide

end FlatCodec
