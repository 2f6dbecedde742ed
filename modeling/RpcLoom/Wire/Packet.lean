/-
RpcLoom/Wire/Packet.lean

Several calls in one packet.

Design.  Each call is a set bit, its id and its fields; a clear bit ends the
calls.  Then a bit says whether a trailing number follows.  Nothing marks where
a call's fields end: whoever reads must take exactly what was written.
-/
import RpcLoom.Run.Host

namespace RpcLoom.Wire

/-- Adds a call to a packet. -/
def writeCall (written : Bits) (c : SentCall) : Except WriteError Bits := do
  let written ← append written (true :: bitsOf 32 c.id.toNat)
  c.payload.foldlM writeField written

/-- The bits of a trailing number that may be missing. -/
def trailerBits : Option UInt32 → Bits
  | some n => true :: bitsOf 32 n.toNat
  | none => [false]

/-- The packet of several calls and a trailing number. -/
def writePacket (calls : List SentCall) (trailer : Option UInt32) : Except WriteError Bits := do
  let written ← calls.foldlM writeCall []
  let written ← append written [false]
  append written (trailerBits trailer)

/-- Takes a bit from the front, or says what is missing. -/
def readFlag (expected : String) : Bits → Except Fault (Bool × Bits)
  | b :: rest => .ok (b, rest)
  | [] => .error (.truncated expected)

/-- Takes a number from the front, or says what is missing. -/
def readU32 (expected : String) (bits : Bits) : Except Fault (UInt32 × Bits) :=
  match readNat 32 bits with
  | some (n, rest) => .ok (.ofNat n, rest)
  | none => .error (.truncated expected)

/-- Takes a trailing number that may be missing from the front. -/
def readTrailer (bits : Bits) : Except Fault (Option UInt32) := do
  let (more, bits) ← readFlag "trailer bit" bits
  if more then
    let (n, _) ← readU32 "trailer" bits
    .ok (some n)
  else .ok none

end RpcLoom.Wire
