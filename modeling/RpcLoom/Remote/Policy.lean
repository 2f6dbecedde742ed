/-
RpcLoom/Remote/Policy.lean

What an annotation settles about a remote call.

Design.  Four truth values, each read from the annotation's field of that name
and otherwise at its default.  Fields of other names mean nothing here.
-/
import RpcLoom.Code.Kind
import RpcLoom.Decl.Attribute

namespace RpcLoom

/-- How a remote call is guarded and delivered. -/
structure Policy where
  /-- To the server only: the sender must own the object. -/
  requireOwnership : Bool
  /-- The logic runs on the calling side as well. -/
  runLocally : Bool
  /-- To observers only: the owning client gets the call too. -/
  includeOwner : Bool
  /-- To observers only: late observers get the last call. -/
  bufferLast : Bool
  deriving DecidableEq, Inhabited

namespace Policy

/-- The policy of an annotation without fields. -/
def default : Policy := ⟨true, false, true, false⟩

/-- The policy an annotation asks for. -/
def ofAttribute (a : Attribute) : Policy where
  requireOwnership := a.flag "RequireOwnership" default.requireOwnership
  runLocally := a.flag "RunLocally" default.runLocally
  includeOwner := a.flag "IncludeOwner" default.includeOwner
  bufferLast := a.flag "BufferLast" default.bufferLast

end Policy

/-- A procedure's annotation as a remote call of one kind. -/
structure Annotation where
  kind : Kind
  policy : Policy
  deriving DecidableEq

/-- The remote call an attribute stands for, if it stands for one. -/
def Annotation.ofAttribute? (a : Attribute) : Option Annotation :=
  (Kind.ofAttributeName? a.name).map fun kind => ⟨kind, .ofAttribute a⟩

end RpcLoom
