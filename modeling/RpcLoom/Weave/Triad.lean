/-
RpcLoom/Weave/Triad.lean

The procedures generated for one remote call, and how they come into its type.

Design.  An edit of a type keeps what it has done also when it fails, so a
failure half-way is seen in the type.  Senders are made before anything is
touched.  Then the user's body moves into a logic procedure, unless one is
there from an earlier run; receivers are added unless they are there; senders
always replace what is there, since the id they send may have changed.
-/
import RpcLoom.Weave.Stub

namespace RpcLoom

/-- A generated procedure for one kind of call. -/
structure Stub where
  kind : Kind
  id : ProcedureId
  ref : MethodRef
  deriving DecidableEq

/-- The procedures generated for one remote call. -/
structure Triad where
  logic : ProcedureId
  logicRef : MethodRef
  /-- One for each kind, observers before target. -/
  writers : List Stub
  /-- One for each kind, observers before target. -/
  readers : List Stub
  deriving DecidableEq

namespace Triad

/-- The sender for a kind of call. -/
def writer? (t : Triad) (kind : Kind) : Option Stub := t.writers.find? (·.kind == kind)

/-- The receiver for a kind of call. -/
def reader? (t : Triad) (kind : Kind) : Option Stub := t.readers.find? (·.kind == kind)

end Triad

/-- An edit of one type, which keeps what it did also when it fails. -/
abbrev TypeEdit := EStateM SynthesisError TypeDef

namespace TypeEdit

/-- The procedure at a position. -/
def procedure (id : ProcedureId) : TypeEdit Procedure := fun t =>
  match t.procedure id with
  | .ok p => .ok p t
  | .error e => .error (.declaration e) t

/-- Adds a procedure. -/
def add (p : Procedure) : TypeEdit ProcedureId := fun t =>
  match t.add p with
  | .ok (t', id) => .ok id t'
  | .error e => .error (.declaration e) t

/-- Puts a procedure in the place of one of the same origin. -/
def replace (id : ProcedureId) (p : Procedure) : TypeEdit Unit := fun t =>
  match t.replace id p with
  | .ok (t', _) => .ok () t'
  | .error e => .error (.declaration e) t

/-- The position of the procedure generated for a key. -/
def findSynthesized? (key : SynthKey) : TypeEdit (Option ProcedureId) := fun t =>
  .ok (t.findSynthesized? key) t

/-- Takes the body out of a procedure. -/
def takeBody (id : ProcedureId) : TypeEdit Body := do
  let p ← procedure id
  match p.body with
  | none => throw (.bodyPending p.name)
  | some body =>
    modify (·.modify id fun p => { p with body := none })
    pure body

/-- What a logic procedure keeps of the modifiers of the one it serves. -/
def logicModifiers (m : Modifiers) : Modifiers :=
  { Modifiers.default with
    visibility := m.visibility, isVirtual := m.isVirtual, isOverride := m.isOverride }

/-- The logic procedure for a procedure: the one that is there, or a new one that takes the
body. -/
def relocateLogic (id : ProcedureId) : TypeEdit ProcedureId := do
  let p ← procedure id
  let key : SynthKey := ⟨.logic, p.signature⟩
  match ← findSynthesized? key with
  | some logic => pure logic
  | none =>
    let body ← takeBody id
    add (.synthesize key (logicModifiers p.modifiers) p.parameters body)

/-- The receiver for one kind of call: the one that is there, or a new one. -/
def ensureReader (loom : Loom) (p : Procedure) (c : Contract) (logic : MethodRef)
    (kind : Kind) : TypeEdit Stub := do
  let key : SynthKey := ⟨.reader kind, p.signature⟩
  let parameters := Receiver.parameters kind
  let ref : MethodRef := ⟨logic.owner, key.mangledName, parameters.map (·.type)⟩
  match ← findSynthesized? key with
  | some id => pure ⟨kind, id, ref⟩
  | none =>
    match loom.receiverBody p c kind logic with
    | .error e => throw e
    | .ok body =>
      let id ← add (.synthesize key .hidden parameters body)
      pure ⟨kind, id, ref⟩

/-- The sender for one kind of call, with the given body. -/
def installWriter (owner : String) (p : Procedure) (kind : Kind) (body : Body) :
    TypeEdit Stub := do
  let key : SynthKey := ⟨.writer kind, p.signature⟩
  let ref : MethodRef := ⟨owner, key.mangledName, p.types⟩
  let writer := Procedure.synthesize key .hidden p.parameters body
  match ← findSynthesized? key with
  | some id =>
    replace id writer
    pure ⟨kind, id, ref⟩
  | none =>
    let id ← add writer
    pure ⟨kind, id, ref⟩

/-- Brings logic, receivers and senders for a procedure into its type. -/
def install (loom : Loom) (owner : String) (id : ProcedureId) (p : Procedure) (c : Contract)
    (bodies : List (Kind × Body)) : TypeEdit Triad := do
  let logic ← relocateLogic id
  let logicName := (← procedure logic).name
  let logicRef : MethodRef := ⟨owner, logicName, p.types⟩
  let readers ← c.kinds.toList.mapM (ensureReader loom p c logicRef)
  let writers ← bodies.mapM fun (kind, body) => installWriter owner p kind body
  pure ⟨logic, logicRef, writers, readers⟩

end TypeEdit

/-- Generates the procedures for one remote call under an id: what is said meanwhile, and the
triad or the failure, with the type as it is then. -/
def Loom.synthesize (loom : Loom) (t : TypeDef) (id : ProcedureId) (c : Contract)
    (rpcId : RpcId) : Log × EStateM.Result SynthesisError TypeDef Triad :=
  match t.procedure id with
  | .error e => ([], .error (.declaration e) t)
  | .ok p =>
    match loom.senderBodies p c rpcId c.kinds.toList with
    | (log, .error e) => (log, .error e t)
    | (log, .ok bodies) => (log, (TypeEdit.install loom t.name id p c bodies).run t)

/-! ### Forwarding -/

/-- Calls a procedure on the same object with all of one's own arguments. -/
def forward (arity : Nat) (ref : MethodRef) : Block :=
  .loadSelf :: (List.range arity).map .loadArg ++ [.call (.method ref)]

namespace Triad

/-- The sender for a kind of call, or what to say if there is none. -/
def writerRef (t : Triad) (procedure : String) (kind : Kind) : Except SynthesisError MethodRef :=
  match t.writer? kind with
  | some stub => .ok stub.ref
  | none => .error (.incompleteTriad procedure kind.tag)

/-- What sends a call: of two kinds, the target's if the first argument is a connection, and the
observers' if it is null. -/
def sendingBody (t : Triad) (p : Procedure) (kinds : KindSet) : Except SynthesisError Body := do
  let arity := p.parameters.length
  match kinds with
  | .single kind =>
    let ref ← t.writerRef p.name kind
    .ok (Body.empty.emit (forward arity ref))
  | .observersAndTarget =>
    let (everyone, b) := Body.empty.newLabel
    let (done, b) := b.newLabel
    let target ← t.writerRef p.name .target
    let observers ← t.writerRef p.name .observers
    .ok <| b.emit
      ([.loadArg 0, .jumpIfNull everyone] ++ forward arity target ++
        [.jump done, .mark everyone] ++ forward arity observers ++ [.mark done])

/-- The body that takes the place of the user's: it sends, runs the logic as well if that is
asked for, and returns. -/
def forwarderBody (t : Triad) (p : Procedure) (c : Contract) : Except SynthesisError Body := do
  let sending ← t.sendingBody p c.kinds
  let here := if c.runLocally then forward p.parameters.length t.logicRef else []
  .ok (sending.emit (here ++ [.leave]))

end Triad

/-- Makes a procedure forward to the senders generated for it. -/
def TypeDef.redirect (t : TypeDef) (id : ProcedureId) (c : Contract) (triad : Triad) :
    Except SynthesisError TypeDef := do
  let p ← (t.procedure id).mapError .declaration
  let body ← triad.forwarderBody p c
  .ok (t.modify id (·.withBody body))

end RpcLoom
