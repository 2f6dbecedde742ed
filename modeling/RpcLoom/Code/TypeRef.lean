/-
RpcLoom/Code/TypeRef.lean

References to types, their text and their spelling inside generated names.

Design.  The types the library itself knows are constructors; every other type
is known by name only, either as an open type parameter or as a named type
that a codec may or may not handle.  Two types may have the same text (a named
type may be called `Channel`), but never the same spelling: open parameters
and names of built-in types carry a mark that no escaped text starts with.
-/
import RpcLoom.Text.Escape

namespace RpcLoom

open RpcLoom.Text (escape)

/-- The type of a parameter, a local or a result. -/
inductive TypeRef where
  | void
  /-- The choice of a transport channel. -/
  | channel
  /-- A network connection. -/
  | connection
  /-- The packet reader handed to a receiver. -/
  | reader
  /-- The pooled writer a sender fills. -/
  | writer
  /-- An open type parameter. -/
  | generic (name : String)
  /-- Any other type. -/
  | named (name : String)
  deriving DecidableEq, Inhabited

namespace TypeRef

/-- The text of a type. -/
def text : TypeRef → String
  | .void => "void"
  | .channel => "Channel"
  | .connection => "NetworkConnection"
  | .reader => "PooledReader"
  | .writer => "PooledWriter"
  | .generic name => name
  | .named name => name

/-- The types that need no name. -/
def builtins : List TypeRef := [.void, .channel, .connection, .reader, .writer]

/-- Whether a name is the text of a built-in type. -/
def isBuiltinText (name : String) : Bool := (builtins.map text).contains name

/-- The spelling of a type inside a generated name. -/
def mangled : TypeRef → String
  | .generic name => "_g_" ++ escape name
  | .named name => if isBuiltinText name then "_n_" ++ escape name else escape name
  | builtin => escape builtin.text

/-- Whether a type is the empty result. -/
def isVoid (t : TypeRef) : Bool := t == .void

/-- Whether a type is the choice of a channel. -/
def isChannel (t : TypeRef) : Bool := t == .channel

/-- Whether a type is the network connection. -/
def isConnection (t : TypeRef) : Bool := t == .connection

/-- Whether a type is an open type parameter. -/
def isGeneric : TypeRef → Bool
  | .generic _ => true
  | _ => false

end TypeRef

end RpcLoom
