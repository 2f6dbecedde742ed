/-
RpcLoom/Code/Instruction.lean

The stack-machine instructions that bodies are made of.

Design.  A label is known only in the block that holds it, and blocks nest: a
protected region has a body and a cleanup, each a block of its own.  Whatever
is called pops its operands in one go, the receiving object first where there
is one.
-/
import RpcLoom.Code.Signature

namespace RpcLoom

/-- A place to jump to within one block. -/
abbrev Label := UInt32

/-- A constant operand. -/
inductive Constant where
  | null
  | bool (value : Bool)
  | u32 (value : UInt32)
  | channel (value : Channel)
  deriving DecidableEq

/-- A procedure named from outside: the search for it starts at the type `owner` and goes on to
the types that one derives from. -/
structure MethodRef where
  owner : String
  name : String
  types : List TypeRef
  deriving DecidableEq, Inhabited

namespace MethodRef

/-- The signature that is looked for. -/
def signature (m : MethodRef) : Signature := ⟨m.name, m.types⟩

/-- How many operands a call takes: the receiving object and the arguments. -/
def arity (m : MethodRef) : Nat := m.types.length + 1

end MethodRef

/-- What the networking host offers to generated code.  Every one takes the receiving object as
its first operand. -/
inductive Intrinsic where
  /-- Object, id, writer, channel. -/
  | sendServer
  /-- Object, id, writer, channel, whether the last call is kept for late observers. -/
  | sendObservers
  /-- Object, id, writer, channel, connection. -/
  | sendTarget
  /-- Whether this side owns the object. -/
  | isOwner
  /-- Whether this side is a client. -/
  | isClient
  /-- Whether this side is the server. -/
  | isServer
  /-- Object, connection: whether the connection owns the object. -/
  | compareOwner
  /-- This side's own connection. -/
  | localConnection
  deriving DecidableEq

namespace Intrinsic

/-- Every intrinsic, in order. -/
def all : List Intrinsic :=
  [.sendServer, .sendObservers, .sendTarget, .isOwner, .isClient, .isServer, .compareOwner,
    .localConnection]

/-- The word for an intrinsic. -/
def tag : Intrinsic → String
  | .sendServer => "SendServerRpc"
  | .sendObservers => "SendObserversRpc"
  | .sendTarget => "SendTargetRpc"
  | .isOwner => "IsOwner"
  | .isClient => "IsClient"
  | .isServer => "IsServer"
  | .compareOwner => "CompareOwner"
  | .localConnection => "LocalConnection"

/-- How many operands an intrinsic takes. -/
def arity : Intrinsic → Nat
  | .sendServer => 4
  | .sendObservers | .sendTarget => 5
  | .compareOwner => 2
  | .isOwner | .isClient | .isServer | .localConnection => 1

/-- Whether an intrinsic leaves a value on the stack. -/
def hasResult : Intrinsic → Bool
  | .sendServer | .sendObservers | .sendTarget => false
  | .isOwner | .isClient | .isServer | .compareOwner | .localConnection => true

end Intrinsic

/-- A codec's procedure for values of one type. -/
structure CodecProc where
  symbol : String
  type : TypeRef
  deriving DecidableEq

/-- What is done to pooled writers and to the packet reader. -/
inductive CodecOp where
  /-- Leaves a fresh writer. -/
  | acquire
  /-- Takes a writer back. -/
  | release
  /-- Writer, value. -/
  | write (proc : CodecProc)
  /-- Takes the reader and leaves the value read. -/
  | read (proc : CodecProc)
  deriving DecidableEq

/-- What a call instruction calls. -/
inductive Callee where
  /-- A procedure; an override on the receiving object's own type goes first. -/
  | method (ref : MethodRef)
  /-- A procedure exactly as found from the named type upwards. -/
  | base (ref : MethodRef)
  | intrinsic (call : Intrinsic)
  | codec (op : CodecOp)
  /-- Anything else; takes `arity` operands and leaves nothing. -/
  | external (symbol : String) (arity : Nat)
  deriving DecidableEq

/-- One instruction. -/
inductive Instruction where
  | loadSelf
  | loadArg (index : Nat)
  | loadLocal (index : Nat)
  | storeLocal (index : Nat)
  | loadConst (value : Constant)
  | pop
  | call (callee : Callee)
  | jump (label : Label)
  | jumpIfTrue (label : Label)
  | jumpIfFalse (label : Label)
  | jumpIfNull (label : Label)
  | mark (label : Label)
  /-- Tells the host a warning. -/
  | warn (text : String)
  /-- Runs `body`, and then `cleanup` however `body` ended. -/
  | region (body cleanup : List Instruction)
  | leave
  deriving Inhabited

/-- A sequence of instructions with labels of its own. -/
abbrev Block := List Instruction

namespace Instruction

/-- The procedure a call instruction names, virtual or not. -/
def method? : Instruction → Option MethodRef
  | .call (.method ref) => some ref
  | .call (.base ref) => some ref
  | _ => none

/-- The same call to another procedure; other instructions stay as they are. -/
def withMethod (ref : MethodRef) : Instruction → Instruction
  | .call (.method _) => .call (.method ref)
  | .call (.base _) => .call (.base ref)
  | i => i

/-- Calls an intrinsic. -/
abbrev intrinsic (i : Intrinsic) : Instruction := .call (.intrinsic i)

/-- Calls a codec operation. -/
abbrev codec (op : CodecOp) : Instruction := .call (.codec op)

end Instruction

/-! ### Labels -/

/-- The label that an instruction jumps to or marks. -/
def Instruction.label? : Instruction → Option Label
  | .jump l | .jumpIfTrue l | .jumpIfFalse l | .jumpIfNull l | .mark l => some l
  | _ => none

/-- A number of 32 bits that is not the last is followed by the next one. -/
theorem toNat_add_one_of_lt {n : UInt32} (h : n.toNat + 1 < UInt32.size) :
    (n + 1).toNat = n.toNat + 1 := by
  rw [UInt32.toNat_add]
  exact Nat.mod_eq_of_lt h

mutual

/-- The highest label of an instruction, at any depth. -/
def Instruction.highestLabel? : Instruction → Option Label
  | .region body cleanup => max (Block.highestLabel? body) (Block.highestLabel? cleanup)
  | i => i.label?

/-- The highest label of a block, at any depth. -/
def Block.highestLabel? : List Instruction → Option Label
  | [] => none
  | i :: rest => max i.highestLabel? (Block.highestLabel? rest)

end

/-! ### Walks over nested blocks -/

mutual

/-- An instruction and all instructions inside it, each before those inside it. -/
def Instruction.nested : Instruction → List Instruction
  | .region body cleanup =>
    .region body cleanup :: (Block.nested body ++ Block.nested cleanup)
  | i => [i]

/-- Every instruction of a block at any depth, each before those inside it. -/
def Block.nested : List Instruction → List Instruction
  | [] => []
  | i :: rest => i.nested ++ Block.nested rest

end

mutual

/-- Replaces an instruction and all instructions inside it, each after those inside it. -/
def Instruction.mapNestedM {m : Type → Type} [Monad m] (f : Instruction → m Instruction) :
    Instruction → m Instruction
  | .region body cleanup => do
    let body ← Block.mapNestedM f body
    let cleanup ← Block.mapNestedM f cleanup
    f (.region body cleanup)
  | i => f i

/-- Replaces every instruction of a block at any depth, each after those inside it. -/
def Block.mapNestedM {m : Type → Type} [Monad m] (f : Instruction → m Instruction) :
    List Instruction → m (List Instruction)
  | [] => pure []
  | i :: rest => do
    let i ← i.mapNestedM f
    let rest ← Block.mapNestedM f rest
    pure (i :: rest)

end

@[simp] theorem Block.nested_nil : Block.nested [] = [] := by simp [Block.nested]

@[simp] theorem Block.nested_cons (i : Instruction) (rest : Block) :
    Block.nested (i :: rest) = i.nested ++ Block.nested rest := by simp [Block.nested]

@[simp] theorem Instruction.nested_region (body cleanup : Block) :
    (region body cleanup).nested =
      region body cleanup :: (Block.nested body ++ Block.nested cleanup) := by
  simp [Instruction.nested]

theorem Block.nested_append (b c : Block) :
    Block.nested (b ++ c) = Block.nested b ++ Block.nested c := by
  induction b with
  | nil => simp
  | cons i rest ih => simp [ih]

end RpcLoom
