/-
RpcLoom/Decl/Error.lean

What can go wrong when types and procedures are declared or looked up.
-/
namespace RpcLoom

/-- Why a declaration or a look-up fails. -/
inductive DeclError where
  /-- No type of this name is declared. -/
  | typeNotFound (name : String)
  /-- No type has this number. -/
  | unknownTypeIndex (index : Nat)
  /-- A type of this name is there already. -/
  | duplicateType (name : String)
  /-- A type derives from one that is not declared. -/
  | baseTypeNotFound (typeName base : String)
  /-- The types that a type derives from run in a circle. -/
  | inheritanceCycle (typeName : String)
  /-- No procedure of the type has this number. -/
  | procedureNotFound (typeName : String) (index : Nat)
  /-- The type has a procedure of this signature already. -/
  | duplicateSignature (typeName signature : String)
  /-- The type has a procedure generated for the same key already. -/
  | duplicateSynthesized (typeName name : String)
  /-- A procedure is to take the place of one that comes from elsewhere. -/
  | originMismatch (typeName name : String)
  /-- Neither the type nor one it derives from has such a procedure. -/
  | methodNotFound (typeName name : String)
  deriving DecidableEq

/-- The text of a failure. -/
def DeclError.message : DeclError → String
  | .typeNotFound name => s!"Type {name} is not declared in this module"
  | .unknownTypeIndex index => s!"Type index {index} is out of range for this module"
  | .duplicateType name => s!"Type {name} is already declared in this module"
  | .baseTypeNotFound typeName base =>
    s!"Type {typeName} derives from {base}, which is not declared in this module"
  | .inheritanceCycle typeName => s!"Inheritance chain of {typeName} contains a cycle"
  | .procedureNotFound typeName index =>
    s!"Procedure #{index} does not exist on type {typeName}"
  | .duplicateSignature typeName signature =>
    s!"Procedure {signature} is already declared on type {typeName}"
  | .duplicateSynthesized typeName name =>
    s!"Synthesized procedure {name} already exists on type {typeName}"
  | .originMismatch typeName name =>
    s!"Procedure {name} on type {typeName} cannot replace a procedure of a different origin"
  | .methodNotFound typeName name =>
    s!"Method {name} could not be resolved on {typeName} or its base types"

/-- If two steps go well one after the other, each of them does. -/
theorem of_bind {ε α β : Type} {x : Except ε α} {f : α → Except ε β} {b : β}
    (h : x >>= f = .ok b) : ∃ a, x = .ok a ∧ f a = .ok b := by
  cases x with
  | error e => cases h
  | ok a => exact ⟨a, rfl, h⟩

end RpcLoom
