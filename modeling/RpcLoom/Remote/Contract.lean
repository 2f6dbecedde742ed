/-
RpcLoom/Remote/Contract.lean

Which procedures are remote calls, and which are refused.

Design.  A procedure without a remote annotation has no contract.  One
with annotations either keeps the rules, and then its contract says how it is
sent and what its parameters are for, or it breaks one.  The rules are tried in
a fixed order and the first one broken is the one reported.
-/
import RpcLoom.Remote.Policy
import RpcLoom.Remote.Layout
import RpcLoom.Decl.TypeDef

namespace RpcLoom

/-- Why a procedure annotated as a remote call is refused. -/
inductive Rejection where
  /-- Its annotations may not stand together. -/
  | multipleRpcAttributes (procedure : String)
  /-- It has no object to be called on. -/
  | isStatic (procedure : String)
  /-- It has type parameters of its own. -/
  | genericProcedure (procedure : String)
  /-- It has no code to run. -/
  | isAbstract (procedure : String)
  /-- It gives back a result, which no caller could wait for. -/
  | nonVoidReturn (procedure returns : String)
  /-- A targeted call does not begin with the connection it goes to. -/
  | missingTargetConnection (procedure : String)
  /-- The type of a parameter that travels is open. -/
  | genericParameter (procedure parameter type : String)
  /-- The codec does not promise the type of a parameter that travels. -/
  | unserializable (procedure type : String)
  deriving DecidableEq

/-- The text of a refusal. -/
def Rejection.message : Rejection → String
  | .multipleRpcAttributes p =>
    s!"{p} RPC method cannot have multiple RPC attributes. " ++
      "Only ObserversRpc and TargetRpc may be used together"
  | .isStatic p => s!"{p} RPC method cannot be static"
  | .genericProcedure p => s!"{p} RPC method cannot contain generic parameters"
  | .isAbstract p => s!"{p} RPC method cannot be abstract"
  | .nonVoidReturn p t => s!"{p} RPC method must return void, found {t}"
  | .missingTargetConnection p =>
    s!"Target RPC {p} must have a NetworkConnection as the first parameter"
  | .genericParameter p x t =>
    s!"RPC method {p} parameter {x} has open generic type {t}, which is not supported"
  | .unserializable p t =>
    s!"RPC method {p} parameter type {t} does not support serialization. " ++
      "Use a supported type or create a custom serializer"

/-- How a procedure is called remotely. -/
structure Contract where
  kinds : KindSet
  annotations : List Annotation
  layout : Layout
  deriving DecidableEq

namespace Contract

/-- The policy for calls of one kind: that of the first annotation of the kind. -/
def policy (c : Contract) (kind : Kind) : Policy :=
  match c.annotations.find? (·.kind == kind) with
  | some a => a.policy
  | none => .default

/-- Whether the logic also runs on the calling side: one annotation asking for it is enough. -/
def runLocally (c : Contract) : Bool := c.annotations.any (·.policy.runLocally)

end Contract

namespace Procedure

/-- The remote annotations of a procedure, in order. -/
def annotations (p : Procedure) : List Annotation :=
  p.attributes.filterMap Annotation.ofAttribute?

/-- Whether a procedure is annotated as a remote call. -/
def isRemote (p : Procedure) : Bool := !p.annotations.isEmpty

/-- The rule that the type of a travelling parameter breaks, if it breaks one. -/
def fieldRejection? (p : Procedure) (codec : Codec) (x : Parameter) : Option Rejection :=
  if x.type.isGeneric then some (.genericParameter p.name x.name x.type.text)
  else if !codec.hasSerializer x.type then some (.unserializable p.name x.type.text)
  else none

/-- The contract of a procedure; nothing if it is not annotated as a remote call. -/
def contract? (p : Procedure) (codec : Codec) : Except Rejection (Option Contract) :=
  if !p.isRemote then .ok none
  else
    match KindSet.ofKinds? (p.annotations.map (·.kind)) with
    | none => .error (.multipleRpcAttributes p.name)
    | some kinds =>
      let layout := Layout.ofParameters kinds p.parameters
      if p.modifiers.isStatic then .error (.isStatic p.name)
      else if !p.generics.isEmpty then .error (.genericProcedure p.name)
      else if p.modifiers.isAbstract then .error (.isAbstract p.name)
      else if !p.returns.isVoid then .error (.nonVoidReturn p.name p.returns.text)
      else if kinds.contains .target && !(p.parameters.head?.any (·.type.isConnection)) then
        .error (.missingTargetConnection p.name)
      else
        match (layout.fields p.parameters).findSome? fun (_, x) => p.fieldRejection? codec x with
        | some r => .error r
        | none => .ok (some ⟨kinds, p.annotations, layout⟩)

end Procedure

/-- How many declared procedures of a type are annotated as remote calls, refused ones too. -/
def TypeDef.remoteCount (t : TypeDef) : Nat :=
  t.procedures.countP fun p => p.isDeclared && p.isRemote

end RpcLoom
