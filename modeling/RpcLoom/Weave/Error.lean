/-
RpcLoom/Weave/Error.lean

What can go wrong while weaving.
-/
import RpcLoom.Remote.Contract

namespace RpcLoom

/-- Why the procedures for a remote call cannot be generated. -/
inductive SynthesisError where
  /-- The codec cannot write a type it promises. -/
  | missingWriter (procedure type : String)
  /-- The codec cannot read a type it promises. -/
  | missingReader (procedure type : String)
  /-- A targeted call has no connection to go to. -/
  | missingTargetConnection (procedure : String)
  /-- The body has been moved out and no logic procedure holds it. -/
  | bodyPending (procedure : String)
  /-- A kind of call has no sender to forward to. -/
  | incompleteTriad (procedure kind : String)
  /-- A look-up or a declaration fails. -/
  | declaration (cause : DeclError)
  deriving DecidableEq

/-- The text of a failure. -/
def SynthesisError.message : SynthesisError → String
  | .missingWriter p t =>
    s!"Could not resolve a writer for type {t} while building the writer of {p}"
  | .missingReader p t =>
    s!"Could not resolve a reader for type {t} while building the reader of {p}"
  | .missingTargetConnection p => s!"Target RPC {p} has no connection parameter to send to"
  | .bodyPending p =>
    s!"Body of {p} has already been relocated and no logic procedure exists for it"
  | .incompleteTriad p k => s!"{p} has no {k} writer to redirect calls to"
  | .declaration cause => cause.message

/-- Why base calls cannot be led to the base type's logic. -/
inductive LinkError where
  /-- No type above has logic of that name. -/
  | baseLogicNotFound (typeName logic : String)
  /-- A look-up or a declaration fails. -/
  | declaration (cause : DeclError)
  deriving DecidableEq

/-- The text of a failure. -/
def LinkError.message : LinkError → String
  | .baseLogicNotFound typeName logic => s!"Could not find base method for {logic} on {typeName}"
  | .declaration cause => cause.message

/-- Why weaving fails, for a type or for one procedure. -/
inductive WeaveError where
  /-- A type and the types above it need more ids than they may use. -/
  | quotaExceeded (typeName : String) (required allowance : UInt32)
  /-- A procedure breaks a rule for remote calls. -/
  | rejection (cause : Rejection)
  /-- The procedures for a remote call cannot be generated. -/
  | synthesis (cause : SynthesisError)
  /-- Base calls cannot be led on. -/
  | link (cause : LinkError)
  /-- A look-up or a declaration fails. -/
  | declaration (cause : DeclError)
  deriving DecidableEq

/-- The text of a failure. -/
def WeaveError.message : WeaveError → String
  | .quotaExceeded typeName required allowance =>
    s!"{typeName} and inherited types need {required} RPC methods, " ++
      s!"exceeding the allowance of {allowance}. " ++
      s!"Only {allowance} RPC methods are supported per inheritance hierarchy"
  | .rejection cause => cause.message
  | .synthesis cause => cause.message
  | .link cause => cause.message
  | .declaration cause => cause.message

end RpcLoom
