/-
RpcLoom/Run/Fault.lean

What can go wrong while code runs or packets are read.
-/
import RpcLoom.Code.Instruction
import RpcLoom.Decl.Error

namespace RpcLoom

/-- Why a run ends early. -/
inductive Fault where
  /-- More operands are taken than there are. -/
  | stackUnderflow (procedure : String)
  /-- A value is of another sort than its use asks for. -/
  | typeMismatch (expected found : String)
  /-- No argument has this position. -/
  | unboundArgument (procedure : String) (index : Nat)
  /-- No local has this position. -/
  | unknownLocal (procedure : String) (index : Nat)
  /-- A jump to a label that its block does not mark. -/
  | unknownLabel (label : Label)
  /-- The procedure's body has been moved out. -/
  | pendingBody (procedure : String)
  /-- The handle belongs to no writer in use. -/
  | writerNotAcquired (handle : Nat)
  /-- Values of the type do not travel. -/
  | unsupported (type : String)
  /-- There is no packet to read from. -/
  | noReader (procedure : String)
  /-- The packet ends too early. -/
  | truncated (expected : String)
  /-- The table has no receiver for the call. -/
  | unknownRpc (kind : Kind) (id : RpcId)
  /-- The transport refuses to send. -/
  | sendFailed (id : RpcId)
  /-- The budget of steps is used up. -/
  | stepLimit (limit : Nat)
  /-- A procedure cannot be found. -/
  | declaration (cause : DeclError)
  deriving DecidableEq

/-- The text of a fault. -/
def Fault.message : Fault → String
  | .stackUnderflow procedure => s!"Stack underflow while executing {procedure}"
  | .typeMismatch expected found => s!"Expected {expected} on the stack, found {found}"
  | .unboundArgument procedure index => s!"Argument {index} is not bound in {procedure}"
  | .unknownLocal procedure index => s!"Local {index} is not declared in {procedure}"
  | .unknownLabel label => s!"Label Label({label}) is not marked in the current block"
  | .pendingBody procedure => s!"Body of {procedure} has been relocated and not refilled"
  | .writerNotAcquired handle => s!"Writer {handle} is not acquired"
  | .unsupported type => s!"Cannot serialize values of type {type}"
  | .noReader procedure => s!"No packet reader is available to {procedure}"
  | .truncated expected => s!"Packet ended before {expected} could be read"
  | .unknownRpc kind id => "No " ++ kind.tag ++ s!" handler is registered for id {id}"
  | .sendFailed id => s!"Transport refused to send RPC {id}"
  | .stepLimit limit => s!"Execution exceeded {limit} steps"
  | .declaration cause => cause.message

end RpcLoom
