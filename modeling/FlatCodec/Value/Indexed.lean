import FlatCodec.Reader.Indexed
import FlatCodec.Value.Read

namespace FlatCodec

/-- Reads a value into a slot where the place is an index into the data, by a decoder that counts
its levels. -/
def Data.readIntoIndexed {C : Catalogue} {t : Ty C.Name} (limit : Nat) (slot : Value C t) :
    IndexedReading (Value C t) :=
  Leveled.fresh (readWithin limit limit t slot)

end FlatCodec
