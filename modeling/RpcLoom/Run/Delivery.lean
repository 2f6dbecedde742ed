/-
RpcLoom/Run/Delivery.lean

Routing the calls of a packet to their receivers.

Design.  Each call is looked up by its kind and id and its receiver takes its
fields from the packet.  Every round takes at least the bit before a call, so
there are no more rounds than bits.  What was delivered before a failure has
been delivered.
-/
import RpcLoom.Run.Machine
import RpcLoom.Wire.Packet
import RpcLoom.Weave.Dispatch

namespace RpcLoom

/-- What the receiving side has seen in a packet. -/
structure Delivery where
  /-- The ids of the calls delivered, in order. -/
  dispatched : List RpcId
  trailer : Option UInt32
  deriving DecidableEq

/-- How a packet is received. -/
structure Reception where
  assembly : Assembly
  object : NetObject
  table : DispatchTable
  kind : Kind
  channel : Channel
  sender : Option ConnectionId

namespace Reception

open Wire (Bits readFlag readU32 readTrailer)

/-- The head of a packet: the id and the receiver of its next call, if there is one, and the rest
of the packet. -/
def nextCall (r : Reception) (packet : Bits) :
    Except Fault (Option (RpcId × DispatchEntry) × Bits) := do
  let (more, packet) ← readFlag "continuation bit" packet
  if more then
    let (id, packet) ← readU32 "rpc id" packet
    match r.table.get? r.kind id with
    | some entry => .ok (some (id, entry), packet)
    | none => .error (.unknownRpc r.kind id)
  else .ok (none, packet)

/-- Delivers the calls of a packet one by one: the ids delivered and what is left of the packet,
or the fault; and the host then. -/
def dispatchAll (r : Reception) : (rounds : Nat) → Bits → Host →
    Except Fault (List RpcId × Bits) × Host
  | 0, _, host => (.error (.truncated "continuation bit"), host)
  | rounds + 1, packet, host =>
    match r.nextCall packet with
    | .error e => (.error e, host)
    | .ok (none, packet) => (.ok ([], packet), host)
    | .ok (some (id, entry), packet) =>
      match r.assembly.receive r.object entry.reader packet r.channel r.sender host with
      | (.error e, host, _) => (.error e, host)
      | (.ok (), host, packet) =>
        let (result, host) := r.dispatchAll rounds packet host
        (result.map fun (ids, packet) => (id :: ids, packet), host)

/-- Delivers a packet. -/
def deliver (r : Reception) (packet : Bits) (host : Host) : Except Fault Delivery × Host :=
  let (result, host) := r.dispatchAll (packet.length + 1) packet host
  let delivery := do
    let (dispatched, packet) ← result
    let trailer ← readTrailer packet
    .ok ⟨dispatched, trailer⟩
  (delivery, host)

end Reception

end RpcLoom
