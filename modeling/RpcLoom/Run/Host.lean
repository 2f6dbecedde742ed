/-
RpcLoom/Run/Host.lean

The object that code runs on, and the host it runs in.

Design.  The object is what this side knows of it and never changes during a
run.  The host keeps a record of everything the code hands to it: what was
sent, said and called, in order, and the writers in use.
-/
import RpcLoom.Run.WriterPool

namespace RpcLoom

/-- A networked object as one side sees it. -/
structure NetObject where
  typeName : String
  isServer : Bool
  isClient : Bool
  /-- The connection that owns the object. -/
  owner : Option ConnectionId
  /-- This side's own connection. -/
  localConnection : Option ConnectionId
  deriving DecidableEq

namespace NetObject

/-- An object on the client that owns it. -/
def client (typeName : String) (id : ConnectionId) : NetObject :=
  ⟨typeName, false, true, some id, some id⟩

/-- An object on the server. -/
def server (typeName : String) (owner : Option ConnectionId) : NetObject :=
  ⟨typeName, true, false, owner, none⟩

/-- The same object with another owner. -/
def ownedBy (o : NetObject) (owner : Option ConnectionId) : NetObject := { o with owner }

/-- Whether a connection is the owner. -/
def ownedByConnection (o : NetObject) (id : Option ConnectionId) : Bool :=
  id.isSome && id == o.owner

theorem ownedByConnection_of_ne {o : NetObject} {id : Option ConnectionId}
    (h : id = none ∨ id ≠ o.owner) : o.ownedByConnection id = false := by
  rw [ownedByConnection]
  rcases h with rfl | h
  · rfl
  · simp [h]

/-- Whether this side is the owner. -/
def isOwner (o : NetObject) : Bool := o.owner.isSome && o.owner == o.localConnection

end NetObject

/-- A call handed to the transport. -/
structure SentCall where
  kind : Kind
  id : RpcId
  payload : List Field
  channel : Channel
  bufferLast : Bool
  target : Option ConnectionId
  deriving DecidableEq

/-- The values of a call's payload. -/
def SentCall.values (c : SentCall) : List Value := c.payload.map (·.2)

/-- A call to a procedure outside the assembly. -/
structure ExternalCall where
  symbol : String
  args : List Value
  deriving DecidableEq

/-- What code has handed to its host. -/
structure Host where
  sent : Array SentCall
  warnings : Array String
  externalCalls : Array ExternalCall
  writers : WriterPool
  /-- Whether the transport refuses to send. -/
  refusesSends : Bool
  deriving DecidableEq

namespace Host

/-- A host that nothing has been handed to. -/
def fresh : Host := ⟨#[], #[], #[], .empty, false⟩

/-- The calls to one procedure outside. -/
def callsTo (h : Host) (symbol : String) : List ExternalCall :=
  h.externalCalls.toList.filter (·.symbol == symbol)

/-- Keeps a warning. -/
def warn (h : Host) (text : String) : Host := { h with warnings := h.warnings.push text }

/-- Keeps a call to a procedure outside. -/
def callExternal (h : Host) (symbol : String) (args : List Value) : Host :=
  { h with externalCalls := h.externalCalls.push ⟨symbol, args⟩ }

/-- What the last operand of a sending intrinsic says: whether the call is kept for late
observers, and the connection it goes to. -/
def addressing (kind : Kind) (operand : Value) : Except Fault (Bool × Option ConnectionId) :=
  match kind with
  | .server => .ok (false, none)
  | .observers => operand.asBool.map fun b => (b, none)
  | .target => operand.asConnection.map fun id => (false, id)

/-- Sends the fields of a writer as a call. -/
def send (h : Host) (kind : Kind) (id writer channel operand : Value) : Except Fault Host := do
  let id ← id.asU32
  if h.refusesSends then
    .error (.sendFailed id)
  else
    let handle ← writer.asWriter
    let payload ← h.writers.contents handle
    let channel ← channel.asChannel
    let (bufferLast, target) ← addressing kind operand
    .ok { h with sent := h.sent.push ⟨kind, id, payload, channel, bufferLast, target⟩ }

/-- Answers an intrinsic: the host then, and the result if there is one.  The receiving object
among the operands is not looked at. -/
def answer (h : Host) (object : NetObject) : Intrinsic → List Value →
    Except Fault (Host × Option Value)
  | .sendServer, [_, id, writer, channel] =>
    (h.send .server id writer channel .null).map fun h => (h, none)
  | .sendObservers, [_, id, writer, channel, keep] =>
    (h.send .observers id writer channel keep).map fun h => (h, none)
  | .sendTarget, [_, id, writer, channel, connection] =>
    (h.send .target id writer channel connection).map fun h => (h, none)
  | .isOwner, _ => .ok (h, some (.bool object.isOwner))
  | .isClient, _ => .ok (h, some (.bool object.isClient))
  | .isServer, _ => .ok (h, some (.bool object.isServer))
  | .compareOwner, [_, connection] => do
    let id ← connection.asConnection
    .ok (h, some (.bool (object.ownedByConnection id)))
  | .localConnection, _ => .ok (h, some (.ofConnection? object.localConnection))
  | _, _ => .ok (h, none)

theorem answer_compareOwner (host : Host) (object : NetObject) (id : Option ConnectionId) :
    host.answer object .compareOwner [.self, .ofConnection? id] =
      .ok (host, some (.bool (object.ownedByConnection id))) := by
  cases id <;> rfl

/-! ### What stays -/

variable {host host' : Host}

/-- Sending adds one call to those that were sent. -/
theorem of_send {kind : Kind} {id writer channel operand : Value}
    (h : host.send kind id writer channel operand = .ok host') :
    ∃ call, host' = { host with sent := host.sent.push call } := by
  obtain ⟨id, -, h⟩ := of_bind h
  split at h
  · cases h
  · obtain ⟨handle, -, h⟩ := of_bind h
    obtain ⟨payload, -, h⟩ := of_bind h
    obtain ⟨channel, -, h⟩ := of_bind h
    obtain ⟨address, -, h⟩ := of_bind h
    exact ⟨_, (Except.ok.inj h).symm⟩

/-- An intrinsic sends one call, or only asks. -/
theorem of_answer {object : NetObject} {i : Intrinsic} {args : List Value}
    {result : Option Value} (h : host.answer object i args = .ok (host', result)) :
    host' = host ∨ ∃ call, host' = { host with sent := host.sent.push call } := by
  have hsend : ∀ {x : Except Fault Host},
      (∀ after, x = .ok after → ∃ call, after = { host with sent := host.sent.push call }) →
      x.map (fun h => (h, (none : Option Value))) = .ok (host', result) →
      ∃ call, host' = { host with sent := host.sent.push call } := by
    intro x hx h
    cases x with
    | error e => cases h
    | ok after =>
      cases h
      exact hx _ rfl
  unfold answer at h
  split at h
  case h_1 | h_2 | h_3 => exact .inr (hsend (fun _ => of_send) h)
  case h_7 connection =>
    obtain ⟨id, -, h⟩ := of_bind h
    cases h
    exact .inl rfl
  all_goals
    cases h
    exact .inl rfl

/-- Whatever an intrinsic is answered, the writers stay as they are. -/
theorem writers_answer {object : NetObject} {i : Intrinsic} {args : List Value}
    {result : Option Value} (h : host.answer object i args = .ok (host', result)) :
    host'.writers = host.writers := by
  rcases of_answer h with rfl | ⟨call, rfl⟩ <;> rfl

end Host

end RpcLoom
