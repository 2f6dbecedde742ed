/-
RpcLoom/Code/Signature.lean

Signatures, and the keys and names of the procedures generated for them.

Design.  A generated procedure is known by the signature it serves and the part
it plays.  Its name is written from that key alone, so weaving a type again
finds the same procedures again.
-/
import RpcLoom.Code.TypeRef
import RpcLoom.Code.Kind

namespace RpcLoom

open RpcLoom.Text (escape)

/-- A procedure's name and the types of its parameters. -/
structure Signature where
  name : String
  types : List TypeRef
  deriving DecidableEq, Inhabited

namespace Signature

/-- The text of a signature: the name, and the types between parentheses. -/
def text (s : Signature) : String :=
  s.name ++ "(" ++ String.intercalate ", " (s.types.map TypeRef.text) ++ ")"

/-- The spelling of a signature inside a generated name. -/
def mangled (s : Signature) : String :=
  escape s.name ++ String.join (s.types.map fun t => "__" ++ t.mangled)

end Signature

/-- The part a generated procedure plays for the procedure it serves. -/
inductive SynthRole where
  /-- Packs the arguments and sends them. -/
  | writer (kind : Kind)
  /-- Unpacks the arguments and calls the logic. -/
  | reader (kind : Kind)
  /-- Holds the user's code. -/
  | logic
  deriving DecidableEq

/-- What a generated procedure is known by. -/
structure SynthKey where
  role : SynthRole
  signature : Signature
  deriving DecidableEq

/-- How the names of one part's procedures begin. -/
def SynthRole.opening : SynthRole → String
  | .writer k => "RpcWriter___" ++ k.tag ++ "___"
  | .reader k => "RpcReader___" ++ k.tag ++ "___"
  | .logic => "RpcLogic___"

/-- The name of a generated procedure. -/
def SynthKey.mangledName (key : SynthKey) : String :=
  key.role.opening ++ key.signature.mangled

end RpcLoom
