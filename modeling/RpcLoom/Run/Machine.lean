/-
RpcLoom/Run/Machine.lean

Running the code of an assembly on an object.

Design.  A run keeps its state also when it fails: what was handed to the host,
what is left of the packet, and how many more steps it may take.  Every
instruction, in whatever procedure and at whatever depth, takes one step from
the same budget, so a run ends.  `runBlock` goes through a block from one of
its suffixes; its first argument bounds the steps that are left and serves the
recursion alone.  A jump goes on from the suffix that begins at the label's
last mark.  Nested blocks share the frame of their procedure, and a cleanup
sees the frame as the body left it.
-/
import RpcLoom.Run.Host
import RpcLoom.Decl.Assembly

namespace RpcLoom

/-- What a procedure works on while it runs. -/
structure Frame where
  args : List Value
  locals : List Value
  /-- The operands, the last one pushed first. -/
  stack : List Value
  deriving DecidableEq

/-- The state of a run. -/
structure RunState where
  frame : Frame
  host : Host
  /-- What is left of the packet, if there is one to read from. -/
  packet : Option Wire.Bits
  /-- How many more instructions may be executed. -/
  stepsLeft : Nat
  deriving DecidableEq

/-- A computation on the state of a run, which keeps the state also when it fails. -/
abbrev Exec := EStateM Fault RunState

/-- How many instructions one run may execute. -/
def stepBudget : Nat := 100000

/-- How a block ends. -/
inductive Flow where
  /-- Its last instruction is done. -/
  | fellThrough
  /-- The procedure returns. -/
  | returned
  deriving DecidableEq

/-- Where a run goes after an instruction. -/
inductive Next where
  | advance
  | goto (label : Label)
  | leave
  deriving DecidableEq

namespace Exec

/-- Takes a step from the budget. -/
def spendStep : Exec Unit := fun s =>
  match s.stepsLeft with
  | 0 => .error (.stepLimit stepBudget) s
  | n + 1 => .ok () { s with stepsLeft := n }

/-- Gives the result of something that may fail. -/
def lift {α : Type} (x : Except Fault α) : Exec α := fun s =>
  match x with
  | .ok a => .ok a s
  | .error e => .error e s

/-- Does something, and gives a failure back as a value. -/
def attempt {α : Type} (x : Exec α) : Exec (Except Fault α) := fun s =>
  match x s with
  | .ok a s => .ok (.ok a) s
  | .error e s => .ok (.error e) s

/-- Does something in a frame of its own, and comes back to the old frame also on failure. -/
def inFrame {α : Type} (frame : Frame) (x : Exec α) : Exec α := fun s =>
  match x { s with frame } with
  | .ok a s' => .ok a { s' with frame := s.frame }
  | .error e s' => .error e { s' with frame := s.frame }

/-- Puts an operand on top. -/
def push (v : Value) : Exec Unit := modify fun s => { s with frame.stack := v :: s.frame.stack }

/-- Takes the topmost operand. -/
def pop (procedure : String) : Exec Value := fun s =>
  match s.frame.stack with
  | [] => .error (.stackUnderflow procedure) s
  | v :: rest => .ok v { s with frame.stack := rest }

/-- Takes the topmost operands, the topmost last; none if there are too few. -/
def popMany (procedure : String) (count : Nat) : Exec (List Value) := fun s =>
  let taken := s.frame.stack.take count
  if taken.length < count then .error (.stackUnderflow procedure) s
  else .ok taken.reverse { s with frame.stack := s.frame.stack.drop count }

/-- Pushes an argument. -/
def loadArg (procedure : String) (index : Nat) : Exec Unit := do
  match (← get).frame.args[index]? with
  | some v => push v
  | none => throw (.unboundArgument procedure index)

/-- Pushes a local. -/
def loadLocal (procedure : String) (index : Nat) : Exec Unit := do
  match (← get).frame.locals[index]? with
  | some v => push v
  | none => throw (.unknownLocal procedure index)

/-- Pops into a local; the operand is gone even if there is no such local. -/
def storeLocal (procedure : String) (index : Nat) : Exec Unit := do
  let v ← pop procedure
  if index < (← get).frame.locals.length then
    modify fun s => { s with frame.locals := s.frame.locals.set index v }
  else
    throw (.unknownLocal procedure index)

/-- Pops a truth value. -/
def popBool (procedure : String) : Exec Bool := do
  lift (← pop procedure).asBool

/-- Changes the host. -/
def onHost (f : Host → Host) : Exec Unit := modify fun s => { s with host := f s.host }

/-- Replaces the pool of writers. -/
def setWriters (writers : WriterPool) : Exec Unit := onHost ({ · with writers })

/-- Reads a value of a type from the packet. -/
def readPacket (procedure : String) (type : TypeRef) : Exec Value := fun s =>
  match s.packet with
  | none => .error (.noReader procedure) s
  | some bits =>
    match Wire.readField type bits with
    | (.ok v, rest) => .ok v { s with packet := some rest }
    | (.error e, rest) => .error e { s with packet := some rest }

/-- Executes a codec operation. -/
def codecOp (procedure : String) : CodecOp → Exec Unit
  | .acquire => do
    let (handle, writers) := (← get).host.writers.acquire
    setWriters writers
    push (.writer handle)
  | .release => do
    let handle ← lift (← pop procedure).asWriter
    setWriters (← lift ((← get).host.writers.release handle))
  | .write proc => do
    let v ← pop procedure
    let handle ← lift (← pop procedure).asWriter
    lift (Wire.check proc.type v)
    setWriters (← lift ((← get).host.writers.write handle (proc.type, v)))
  | .read proc => do
    let source ← pop procedure
    if source = .reader then push (← readPacket procedure proc.type)
    else throw (source.mismatch "reader")

/-- Executes an intrinsic. -/
def intrinsic (object : NetObject) (procedure : String) (i : Intrinsic) : Exec Unit := do
  let args ← popMany procedure i.arity
  let (host, result) ← lift ((← get).host.answer object i args)
  onHost fun _ => host
  match result with
  | some v => push v
  | none => pure ()

/-- Calls a procedure on the same object: `enter` runs it on the arguments. -/
def callMethod (procedure : String) (m : MethodRef) (enter : List Value → Exec Unit) :
    Exec Unit := do
  match ← popMany procedure m.arity with
  | .self :: args => enter args
  | receiver :: _ => throw (receiver.mismatch "self")
  | [] => throw (.stackUnderflow procedure)

/-- What a region comes to, from what its body and its cleanup came to: a failed body counts
first, then a body that returned, then the cleanup. -/
def regionResult : Except Fault Flow → Except Fault Flow → Except Fault Next
  | .error e, _ => .error e
  | .ok .returned, _ => .ok .leave
  | .ok .fellThrough, .error e => .error e
  | .ok .fellThrough, .ok .returned => .ok .leave
  | .ok .fellThrough, .ok .fellThrough => .ok .advance

/-- Goes to a label or on. -/
def jumpWhen (condition : Bool) (label : Label) : Next :=
  if condition then .goto label else .advance

/-- Executes one instruction.  `enter` runs a procedure, virtually or not, and `inner` a nested
block. -/
def instruction (object : NetObject) (procedure : String)
    (enter : Bool → MethodRef → List Value → Exec Unit) (inner : Block → Exec Flow) :
    Instruction → Exec Next
  | .loadSelf => do push .self; pure .advance
  | .loadArg index => do loadArg procedure index; pure .advance
  | .loadLocal index => do loadLocal procedure index; pure .advance
  | .storeLocal index => do storeLocal procedure index; pure .advance
  | .loadConst c => do push (.ofConstant c); pure .advance
  | .pop => do let _ ← pop procedure; pure .advance
  | .call (.method m) => do callMethod procedure m (enter true m); pure .advance
  | .call (.base m) => do callMethod procedure m (enter false m); pure .advance
  | .call (.intrinsic i) => do intrinsic object procedure i; pure .advance
  | .call (.codec op) => do codecOp procedure op; pure .advance
  | .call (.external symbol arity) => do
    let args ← popMany procedure arity
    onHost (·.callExternal symbol args)
    pure .advance
  | .jump label => pure (.goto label)
  | .jumpIfTrue label => do
    let b ← popBool procedure
    pure (jumpWhen b label)
  | .jumpIfFalse label => do
    let b ← popBool procedure
    pure (jumpWhen (!b) label)
  | .jumpIfNull label => do
    let v ← pop procedure
    pure (jumpWhen (v = .null) label)
  | .mark _ => pure .advance
  | .warn text => do onHost (·.warn text); pure .advance
  | .region body cleanup => do
    let body ← attempt (inner body)
    let cleanup ← attempt (inner cleanup)
    lift (regionResult body cleanup)
  | .leave => pure .leave

end Exec

/-- What a block goes on with after a jump: from the last mark of the label onwards. -/
def Block.from? (label : Label) : Block → Option Block
  | [] => none
  | i :: rest =>
    match from? label rest with
    | some found => some found
    | none =>
      match i with
      | .mark l => if l = label then some (i :: rest) else none
      | _ => none

namespace Assembly

/-- The procedure a reference stands for. -/
def procedureFor (a : Assembly) (m : MethodRef) : Except DeclError Procedure := do
  let (i, id) ← a.resolve m
  let t ← a.type i
  t.procedure id

/-- The procedure that a call runs: for a virtual call to a virtual procedure, the one found from
the object's own type. -/
def calleeOf (a : Assembly) (object : NetObject) (isVirtualCall : Bool) (m : MethodRef) :
    Except DeclError Procedure := do
  let found ← a.procedureFor m
  if isVirtualCall && found.isVirtual then a.procedureFor { m with owner := object.typeName }
  else .ok found

/-- Runs the procedure of a call in a frame of its own; `run` goes through its code. -/
def enter (a : Assembly) (object : NetObject) (run : String → Block → Exec Flow)
    (isVirtualCall : Bool) (m : MethodRef) (args : List Value) : Exec Unit := do
  let p ← Exec.lift ((a.calleeOf object isVirtualCall m).mapError .declaration)
  match p.body with
  | none => throw (.pendingBody p.name)
  | some body =>
    let frame : Frame := ⟨args, List.replicate body.locals.length .null, []⟩
    let _ ← Exec.inFrame frame (run p.name body.code)

/-- Goes through a block of a procedure, from one of its suffixes.  The bound is at least the
number of steps left. -/
def runBlock (a : Assembly) (object : NetObject) :
    (bound : Nat) → (procedure : String) → (block rest : Block) → Exec Flow
  | _, _, _, [] => pure .fellThrough
  | 0, _, _, _ :: _ => throw (.stepLimit stepBudget)
  | bound + 1, procedure, block, i :: rest => do
    Exec.spendStep
    let enter := a.enter object fun name code => a.runBlock object bound name code code
    let inner := fun code => a.runBlock object bound procedure code code
    match ← Exec.instruction object procedure enter inner i with
    | .advance => a.runBlock object bound procedure block rest
    | .goto label =>
      match block.from? label with
      | some rest => a.runBlock object bound procedure block rest
      | none => throw (.unknownLabel label)
    | .leave => pure .returned

/-- Runs the procedure of a call with a fresh budget: the outcome, the host, and what is left of
the packet. -/
def invoke (a : Assembly) (object : NetObject) (isVirtualCall : Bool) (m : MethodRef)
    (args : List Value) (packet : Option Wire.Bits) (host : Host) :
    Except Fault Unit × Host × Option Wire.Bits :=
  let run := fun name code => a.runBlock object stepBudget name code code
  match a.enter object run isVirtualCall m args ⟨⟨[], [], []⟩, host, packet, stepBudget⟩ with
  | .ok () s => (.ok (), s.host, s.packet)
  | .error e s => (.error e, s.host, s.packet)

/-- Calls a procedure of an object by its name, as user code would. -/
def call (a : Assembly) (object : NetObject) (name : String) (args : List Value) (host : Host) :
    Except Fault Unit × Host :=
  match a.methodNamed object.typeName name with
  | .error e => (.error (.declaration e), host)
  | .ok m =>
    let (result, host, _) := a.invoke object true m args none host
    (result, host)

/-- The arguments a receiver is run with: the packet, the channel, and the sender if the receiver
has a parameter for it. -/
def receiverArgs (reader : MethodRef) (channel : Channel) (sender : Option ConnectionId) :
    List Value :=
  [.reader, .channel channel] ++
    if 2 < reader.types.length then [.ofConnection? sender] else []

/-- Runs a receiver on a packet: the outcome, the host, and what is left of the packet. -/
def receive (a : Assembly) (object : NetObject) (reader : MethodRef) (packet : Wire.Bits)
    (channel : Channel) (sender : Option ConnectionId) (host : Host) :
    Except Fault Unit × Host × Wire.Bits :=
  let (result, host, rest) :=
    a.invoke object false reader (receiverArgs reader channel sender) (some packet) host
  (result, host, rest.getD [])

end Assembly

end RpcLoom
