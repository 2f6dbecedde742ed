/-
RpcLoom/Weave/Stub.lean

The bodies of generated senders and receivers.

Design.  A sender checks that its side may send, takes a writer, packs the
travelling arguments, sends, and gives the writer back whatever happened.  A
receiver unpacks every travelling argument first, so that a refused call has
still used up its part of the packet; only then it checks, and calls the logic
with the arguments in the order the procedure declares them.
-/
import RpcLoom.Weave.Settings
import RpcLoom.Weave.Notice
import RpcLoom.Weave.Error

namespace RpcLoom

namespace Body

/-! ### Authority checks -/

/-- What a side that does not own the object is told. -/
def notOwnerWarning : String :=
  "Cannot complete action because you are not the owner of this object."

/-- What a side that is no client is told. -/
def clientInactiveWarning : String := "Cannot complete action because client is not active."

/-- What a side that is no server is told. -/
def serverInactiveWarning : String := "Cannot complete action because server is not active."

/-- Goes on only if `predicate` leaves true; otherwise warns and returns. -/
def require (b : Body) (predicate : Block) (warning : String) : Body :=
  let (pass, b) := b.newLabel
  b.emit (predicate ++ [.jumpIfTrue pass, .warn warning, .leave, .mark pass])

/-- Asks the host one question about the object. -/
def askSelf (i : Intrinsic) : Block := [.loadSelf, .intrinsic i]

/-- The checks of a sender, before anything is packed. -/
def guardSender (b : Body) (kind : Kind) (policy : Policy) : Body :=
  match kind with
  | .server =>
    let b := if policy.requireOwnership then b.require (askSelf .isOwner) notOwnerWarning else b
    b.require (askSelf .isClient) clientInactiveWarning
  | .observers | .target => b.require (askSelf .isServer) serverInactiveWarning

end Body

/-! ### Receivers' arguments -/

namespace Receiver

/-- The argument that holds the packet. -/
def readerArg : Nat := 0

/-- The argument that holds the channel the call came on. -/
def channelArg : Nat := 1

/-- The argument that holds the connection the call came from. -/
def connectionArg : Nat := 2

/-- The parameters of a receiver.  The channel always stands before the connection. -/
def parameters : Kind → List Parameter
  | .server => [.plain "reader" .reader, .plain "channel" .channel, .plain "conn" .connection]
  | .observers | .target => [.plain "reader" .reader, .plain "channel" .channel]

end Receiver

/-- The checks of a receiver, after everything is unpacked.  A call that its owner has already
run is dropped without a word. -/
def Body.guardReceiver (b : Body) (kind : Kind) (policy : Policy) : Body :=
  match kind with
  | .server =>
    if policy.requireOwnership then
      b.require [.loadSelf, .loadArg Receiver.connectionArg, .intrinsic .compareOwner]
        notOwnerWarning
    else b
  | .observers =>
    if policy.includeOwner then b
    else
      let (pass, b) := b.newLabel
      b.emit (askSelf .isOwner ++ [.jumpIfFalse pass, .leave, .mark pass])
  | .target => b

/-! ### Senders -/

namespace Loom

/-- What packs the travelling arguments into the writer in a local. -/
def packing (loom : Loom) (p : Procedure) (fields : List (Nat × Parameter)) (writer : Nat) :
    Except SynthesisError Block := do
  let blocks ← fields.mapM fun (i, x) =>
    match loom.codec.writerFor x.type with
    | some proc => .ok [.loadLocal writer, .loadArg i, .codec (.write proc)]
    | none => .error (.missingWriter p.name x.type.text)
  .ok blocks.flatten

/-- What sends the packed arguments. -/
def sending (p : Procedure) (c : Contract) (kind : Kind) (id : RpcId) (writer channel : Nat) :
    Except SynthesisError Block :=
  let operands : Block :=
    [.loadSelf, .loadConst (.u32 id), .loadLocal writer, .loadLocal channel]
  match kind with
  | .server => .ok (operands ++ [.intrinsic .sendServer])
  | .observers =>
    .ok (operands ++ [.loadConst (.bool (c.policy kind).bufferLast), .intrinsic .sendObservers])
  | .target =>
    match c.layout.position? .target with
    | some i => .ok (operands ++ [.loadArg i, .intrinsic .sendTarget])
    | none => .error (.missingTargetConnection p.name)

/-- The channel of a call: the argument that chooses it, or the usual one. -/
def channelOperand (loom : Loom) (c : Contract) : Instruction :=
  match c.layout.position? .channel with
  | some i => .loadArg i
  | none => .loadConst (.channel loom.settings.channel)

/-- The body of the sender for one kind of call. -/
def senderBody (loom : Loom) (p : Procedure) (c : Contract) (id : RpcId) (kind : Kind) :
    Except SynthesisError Body := do
  let guarded :=
    if loom.settings.guards then Body.empty.guardSender kind (c.policy kind) else .empty
  let (channel, b) := guarded.declareLocal .channel
  let (writer, b) := b.declareLocal .writer
  let packing ← loom.packing p (c.layout.fields p.parameters) writer
  let sending ← sending p c kind id writer channel
  .ok <| b.emit
    [loom.channelOperand c, .storeLocal channel, .codec .acquire, .storeLocal writer,
      .region (packing ++ sending) [.loadLocal writer, .codec .release], .leave]

/-- What is said about an argument that travels by reference and is kept for late observers. -/
def bufferedByRefWarning (procedure parameter : String) : String :=
  s!"{procedure} uses BufferLast while parameter {parameter} is passed by reference. " ++
    "The buffered call will hold the value at the time it was sent"

/-- What is said while the sender for one kind of call is made: one warning for each argument
kept by reference, up to the first argument that cannot be packed. -/
def senderLog (loom : Loom) (p : Procedure) (c : Contract) (kind : Kind) : Log :=
  if kind = .observers ∧ (c.policy kind).bufferLast then
    let packed := (c.layout.fields p.parameters).takeWhile fun (_, x) =>
      (loom.codec.writerFor x.type).isSome
    (packed.filter (·.2.byRef)).flatMap fun (_, x) =>
      Log.warning (bufferedByRefWarning p.name x.name)
  else []

/-- The bodies of the senders for several kinds, up to the first that cannot be made, and what
is said meanwhile. -/
def senderBodies (loom : Loom) (p : Procedure) (c : Contract) (id : RpcId) :
    List Kind → Log × Except SynthesisError (List (Kind × Body))
  | [] => ([], .ok [])
  | kind :: kinds =>
    let log := loom.senderLog p c kind
    match loom.senderBody p c id kind with
    | .error e => (log, .error e)
    | .ok b =>
      let (more, rest) := loom.senderBodies p c id kinds
      (log ++ more, rest.map ((kind, b) :: ·))

/-! ### Receivers -/

/-- What unpacks the travelling arguments, the first into local 0 and so on. -/
def unpacking (loom : Loom) (p : Procedure) (fields : List (Nat × Parameter)) :
    Except SynthesisError Block := do
  let procs ← fields.mapM fun (_, x) =>
    match loom.codec.readerFor x.type with
    | some proc => .ok proc
    | none => .error (.missingReader p.name x.type.text)
  .ok <| procs.zipIdx.flatMap fun (proc, slot) => Body.readInto Receiver.readerArg proc slot

/-- What loads the arguments for the logic in the order of their roles; `slot` is the local of
the next unpacked one. -/
def argumentLoads : List Role → (slot : Nat) → Block
  | [], _ => []
  | .serialized :: roles, slot => .loadLocal slot :: argumentLoads roles (slot + 1)
  | .channel :: roles, slot => .loadArg Receiver.channelArg :: argumentLoads roles slot
  | .caller :: roles, slot => .loadArg Receiver.connectionArg :: argumentLoads roles slot
  | .target :: roles, slot =>
    .loadSelf :: .intrinsic .localConnection :: argumentLoads roles slot

/-- The body of the receiver for one kind of call, which runs the procedure `logic`. -/
def receiverBody (loom : Loom) (p : Procedure) (c : Contract) (kind : Kind) (logic : MethodRef) :
    Except SynthesisError Body := do
  let fields := c.layout.fields p.parameters
  let unpacking ← loom.unpacking p fields
  let b : Body := { Body.empty with locals := fields.map fun (_, x) => x.type }
  .ok <| ((b.emit unpacking).guardReceiver kind (c.policy kind)).emit
    (.loadSelf :: argumentLoads c.layout.roles 0 ++ [.call (.method logic), .leave])

end Loom

end RpcLoom
