/-
RpcLoom/Run/Value.lean

The values that running code handles.

Design.  A value knows its own sort, and every use asks for one sort and fails
on any other.  Null stands for a missing connection as well.
-/
import RpcLoom.Code.Instruction
import RpcLoom.Run.Fault
import RpcLoom.Text.Binary32
import RpcLoom.Text.Quoted

namespace RpcLoom

open RpcLoom.Text (Binary32 quote)

/-- A value on the stack. -/
inductive Value where
  | null
  | bool (value : Bool)
  | u32 (value : UInt32)
  | i32 (value : Int32)
  | f32 (value : Binary32)
  | text (value : String)
  | channel (value : Channel)
  | connection (id : ConnectionId)
  | writer (handle : Nat)
  /-- The packet that is being read. -/
  | reader
  /-- The object that the code runs on. -/
  | self
  deriving DecidableEq, Inhabited

namespace Value

/-- The value of a constant. -/
def ofConstant : Constant → Value
  | .null => .null
  | .bool b => .bool b
  | .u32 n => .u32 n
  | .channel c => .channel c

/-- The value of a connection that may be missing. -/
def ofConnection? : Option ConnectionId → Value
  | some id => .connection id
  | none => .null

/-- The text of a value in a diagnostic. -/
def describe : Value → String
  | .null => "Null"
  | .bool b => "Bool(" ++ (if b then "true" else "false") ++ ")"
  | .u32 n => s!"U32({n})"
  | .i32 n => "I32(" ++ toString n.toInt ++ ")"
  | .f32 x => "F32(" ++ x.text ++ ")"
  | .text s => "Text(" ++ quote s ++ ")"
  | .channel c => "Channel(" ++ c.tag ++ ")"
  | .connection id => s!"Connection({id})"
  | .writer handle => s!"Writer({handle})"
  | .reader => "Reader"
  | .self => "SelfRef"

/-- The fault of finding a value where another sort is needed. -/
def mismatch (expected : String) (found : Value) : Fault := .typeMismatch expected found.describe

/-- A truth value. -/
def asBool : Value → Except Fault Bool
  | .bool b => .ok b
  | v => .error (mismatch "bool" v)

/-- An unsigned number. -/
def asU32 : Value → Except Fault UInt32
  | .u32 n => .ok n
  | v => .error (mismatch "u32" v)

/-- A channel. -/
def asChannel : Value → Except Fault Channel
  | .channel c => .ok c
  | v => .error (mismatch "channel" v)

/-- The handle of a writer. -/
def asWriter : Value → Except Fault Nat
  | .writer handle => .ok handle
  | v => .error (mismatch "writer" v)

/-- A connection, or none for null. -/
def asConnection : Value → Except Fault (Option ConnectionId)
  | .connection id => .ok (some id)
  | .null => .ok none
  | v => .error (mismatch "connection" v)

end Value

end RpcLoom
