import FlatCodec.Error
import FlatCodec.Level

namespace FlatCodec

/-- A place in a byte string: how many bytes lie before it, and the bytes after it. -/
structure Reader where
  position : Nat
  rest : List UInt8
  deriving DecidableEq, Repr

/-- An action that consumes bytes. When it fails, the reader stays behind the reads that
succeeded. -/
abbrev Reading (α : Type) := EStateM DecodeError Reader α

namespace Reader

def ofBytes (bytes : List UInt8) : Reader := ⟨0, bytes⟩

/-- A reader behind the first `offset` bytes; the end itself is still a place, what lies
beyond it is not. -/
def at? (bytes : List UInt8) (offset : Nat) : Except DecodeError Reader :=
  if offset ≤ bytes.length then .ok ⟨offset, bytes.drop offset⟩
  else .error (.outOfBounds "start offset" offset bytes.length)

def remaining (r : Reader) : Nat := r.rest.length

def isEmpty (r : Reader) : Bool := r.rest.isEmpty

def finish (r : Reader) : Except DecodeError Unit :=
  if r.rest.isEmpty then .ok () else .error (.trailingBytes r.remaining)

/-- The next `n` bytes. Only they are looked at, so a read costs what it returns; what is
left in all is counted for the report of a failure alone. -/
def readBytes (n : Nat) (context : String) : Reading (List UInt8) := fun r =>
  let bytes := r.rest.take n
  if bytes.length = n then .ok bytes ⟨r.position + n, r.rest.drop n⟩
  else .error (.outOfBounds context n r.remaining) r

def readByte (context : String) : Reading UInt8 := fun r =>
  match r.rest with
  | b :: rest => .ok b ⟨r.position + 1, rest⟩
  | [] => .error (.outOfBounds context 1 0) r

theorem readBytes_run (n : Nat) (context : String) (r : Reader) :
    readBytes n context r =
      if n ≤ r.remaining then .ok (r.rest.take n) ⟨r.position + n, r.rest.drop n⟩
      else .error (.outOfBounds context n r.remaining) r := by
  have h : (r.rest.take n).length = n ↔ n ≤ r.remaining := by
    simp only [List.length_take, remaining]
    omega
  simp only [readBytes, h]

@[simp] theorem readByte_cons (context : String) (p : Nat) (b : UInt8) (rest : List UInt8) :
    readByte context ⟨p, b :: rest⟩ = .ok b ⟨p + 1, rest⟩ := rfl

@[simp] theorem readByte_nil (context : String) (p : Nat) :
    readByte context ⟨p, []⟩ = .error (.outOfBounds context 1 0) ⟨p, []⟩ := rfl

/-- A single byte is read as a byte string of length one is. -/
theorem readByte_eq_readBytes (context : String) (r : Reader) :
    readBytes 1 context r =
      match readByte context r with
      | .ok b r' => .ok [b] r'
      | .error e r' => .error e r' := by
  rcases r with ⟨p, _ | ⟨b, rest⟩⟩ <;> rfl

end Reader

/-- What is asked of a place that values are read at: one byte, as many bytes as have been counted,
or as many as a number is known to take. -/
inductive Read : Type → Type where
  | byte (context : String) : Read UInt8
  | bytes (n : Nat) (context : String) : Read (List UInt8)
  | array (n : Nat) (context : String) : Read (List UInt8)

def Read.run {α : Type} : Read α → Reading α
  | byte context => Reader.readByte context
  | bytes n context => Reader.readBytes n context
  | array n context => Reader.readBytes n context

@[simp] theorem Read.run_byte (context : String) :
    (Read.byte context).run = Reader.readByte context := rfl

@[simp] theorem Read.run_bytes (n : Nat) (context : String) :
    (Read.bytes n context).run = Reader.readBytes n context := rfl

/-- States that values are read on: bytes are read there, and levels are opened and closed. What is
wrong with the bytes may be one failure among others. -/
class Cursor (ε : outParam Type) (σ : Type) where
  failure : DecodeError → ε
  reading {α : Type} : Read α → EStateM ε σ α
  /-- Runs what lies one level further in, where the limit leaves a level for it. -/
  nested {α : Type} : (limit : Nat) → EStateM ε σ α → EStateM ε σ α

/-- A reader alone keeps no count, so for it the levels are only those that are handed down. -/
instance : Cursor DecodeError Reader where
  failure e := e
  reading x := x.run
  nested _ x := x

/-- A place to read values at, with the levels open around the next one. -/
abbrev Decoder := Leveled Reader

abbrev Decoding (α : Type) := EStateM DecodeError Decoder α

/-- With a count of the levels that are open, one that is too many is noticed. -/
instance {ε σ : Type} [Cursor ε σ] : Cursor ε (Leveled σ) where
  failure := Cursor.failure σ
  reading x := Leveled.lift (Cursor.reading x)
  nested limit := Leveled.nested limit (Cursor.failure σ (.depthExceeded limit))

namespace Cursor

variable {ε σ α : Type} [Cursor ε σ]

def refuse (e : DecodeError) : EStateM ε σ α := throw (failure σ e)

@[simp] theorem reading_reader (x : Read α) : (reading x : Reading α) = x.run := rfl

@[simp] theorem nested_reader (limit : Nat) (x : Reading α) : nested limit x = x := rfl

@[simp] theorem refuse_reader (e : DecodeError) : (refuse e : Reading α) = throw e := rfl

end Cursor

def readCount {ε σ : Type} [Cursor ε σ] (context : String) : EStateM ε σ Nat :=
  return (← Cursor.reading (.byte context)).toNat

theorem readCount_bind {ε σ α : Type} [Cursor ε σ] (context : String) (f : Nat → EStateM ε σ α) :
    readCount context >>= f = Cursor.reading (.byte context) >>= fun b => f b.toNat := by
  rw [readCount, bind_assoc]
  simp only [pure_bind]

namespace Reader

/-- The actions a caller may run at a place; `save` marks it and `restore` returns to a mark. -/
inductive Step where
  | byte (context : String)
  | count (context : String)
  | bytes (n : Nat) (context : String)
  | save
  | restore

inductive Answer where
  | byte (b : UInt8)
  | count (n : Nat)
  | bytes (bs : List UInt8)
  | done

def Step.run {ε σ : Type} [Cursor ε σ] : Step → EStateM ε (Marked σ) Answer
  | byte context => .byte <$> Marked.lift (Cursor.reading (.byte context))
  | count context => .count <$> Marked.lift (readCount context)
  | bytes n context => .bytes <$> Marked.lift (Cursor.reading (.bytes n context))
  | save => do modify Marked.save; return .done
  | restore => do modify Marked.restore; return .done

end Reader

end FlatCodec
