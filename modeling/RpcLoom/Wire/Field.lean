/-
RpcLoom/Wire/Field.lean

Values as bits.

Design.  Five named types travel, and a value travels under one of them only if
it is of that sort.  A field that is refused adds no bits.  A packet holds a
limited number of bits, and a field that does not fit is a failure of another
kind, since half of it has been sent by then.  A read that meets the end has
used up everything.

How each sort of value looks in bits is, like the bits of numbers and lengths, the
format of a library that is not part of the program and is assumed here; so is the
number of bits that a packet holds.
-/
import RpcLoom.Run.Value
import RpcLoom.Wire.Bits
import RpcLoom.Text.Utf8

namespace RpcLoom

open RpcLoom.Text (Binary32 utf8 textOfUtf8)

/-- A value with the type it travels under. -/
abbrev Field := TypeRef × Value

namespace Wire

/-- The sorts of values that travel. -/
inductive Scalar where
  | bool
  | u32
  | i32
  | f32
  | text
  deriving DecidableEq

namespace Scalar

/-- The sort that travels under a type's name. -/
def ofName? : String → Option Scalar
  | "bool" => some .bool
  | "u32" => some .u32
  | "i32" => some .i32
  | "f32" => some .f32
  | "String" => some .text
  | _ => none

/-- Whether a value is of a sort. -/
def admits : Scalar → Value → Bool
  | .bool, .bool _ => true
  | .u32, .u32 _ => true
  | .i32, .i32 _ => true
  | .f32, .f32 _ => true
  | .text, .text _ => true
  | _, _ => false

/-- Takes a value of a sort from the front. -/
def read : Scalar → Bits → Option (Value × Bits)
  | .bool, bits => (readNat 1 bits).map fun (n, rest) => (.bool (n == 1), rest)
  | .u32, bits => (readNat 32 bits).map fun (n, rest) => (.u32 (.ofNat n), rest)
  | .i32, bits => (readNat 32 bits).map fun (n, rest) => (.i32 (UInt32.ofNat n).toInt32, rest)
  | .f32, bits => (readNat 32 bits).map fun (n, rest) => (.f32 ⟨.ofNat n⟩, rest)
  | .text, bits => do
    let (length, bits) ← readLength bits
    let (octets, rest) ← readOctets length bits
    some (.text (textOfUtf8 octets), rest)

end Scalar

/-- The bits of a value of a sort that travels. -/
def bitsOfValue : Value → Bits
  | .bool b => [b]
  | .u32 n => bitsOf 32 n.toNat
  | .i32 n => bitsOf 32 n.toUInt32.toNat
  | .f32 x => bitsOf 32 x.bits.toNat
  | .text s => lengthBits (utf8 s).length ++ bitsOfOctets (utf8 s)
  | _ => []

/-- Refuses a value that cannot travel under a type. -/
def check (type : TypeRef) (v : Value) : Except Fault Unit :=
  match type with
  | .named name =>
    match Scalar.ofName? name with
    | some s => if s.admits v then .ok () else .error (v.mismatch "value matching the write type")
    | none => .error (v.mismatch "value matching the write type")
  | other => .error (.unsupported other.text)

/-- Takes a value that travels under a type from the front: the value or the fault, and the rest. -/
def readField (type : TypeRef) (bits : Bits) : Except Fault Value × Bits :=
  match type with
  | .named name =>
    match Scalar.ofName? name with
    | some s =>
      match s.read bits with
      | some (v, rest) => (.ok v, rest)
      | none => (.error (.truncated name), [])
    | none => (.error (.unsupported name), bits)
  | other => (.error (.unsupported other.text), bits)

/-! ### Writing within the limit -/

/-- How many bits a packet holds. -/
def capacity : Nat := 3440

/-- Why a packet cannot be written. -/
inductive WriteError where
  | fault (cause : Fault)
  /-- The packet is full. -/
  | overflow
  deriving DecidableEq

/-- The text of a failure. -/
def WriteError.message : WriteError → String
  | .fault cause => cause.message
  | .overflow => "Write overflow!"

/-- Adds bits to a packet, if they fit. -/
def append (written more : Bits) : Except WriteError Bits :=
  if written.length + more.length ≤ capacity then .ok (written ++ more) else .error .overflow

/-- Adds a field to a packet, if its value can travel under its type and fits. -/
def writeField (written : Bits) (field : Field) : Except WriteError Bits := do
  (check field.1 field.2).mapError .fault
  append written (bitsOfValue field.2)

end Wire

end RpcLoom
