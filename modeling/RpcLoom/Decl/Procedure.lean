/-
RpcLoom/Decl/Procedure.lean

The procedures of a type.

Design.  A procedure is either declared by the user or generated, and then it
carries the key it was generated for.  Its body may be away: while a body has
been moved out and nothing has taken its place, there is none.
-/
import RpcLoom.Code.Body
import RpcLoom.Decl.Attribute

namespace RpcLoom

/-- A parameter. -/
structure Parameter where
  name : String
  type : TypeRef
  /-- Whether callers may leave the argument out. -/
  hasDefault : Bool
  /-- Whether the argument is passed by reference. -/
  byRef : Bool
  deriving DecidableEq, Inhabited

/-- A parameter of a type, without a default and passed by value. -/
def Parameter.plain (name : String) (type : TypeRef) : Parameter := ⟨name, type, false, false⟩

/-- Who may call a procedure. -/
inductive Visibility where
  /-- Any code. -/
  | anyone
  /-- The type and the types deriving from it. -/
  | heirs
  /-- The assembly. -/
  | assembly
  /-- The type alone. -/
  | owner
  deriving DecidableEq

/-- The modifiers of a procedure. -/
structure Modifiers where
  visibility : Visibility
  isStatic : Bool
  isAbstract : Bool
  isVirtual : Bool
  isOverride : Bool
  deriving DecidableEq

namespace Modifiers

/-- Open to anyone, and nothing else. -/
def default : Modifiers := ⟨.anyone, false, false, false, false⟩

/-- Open to the type alone, and nothing else. -/
def hidden : Modifiers := { default with visibility := .owner }

end Modifiers

/-- Where a procedure comes from. -/
inductive Origin where
  | declared
  | synthesized (key : SynthKey)
  deriving DecidableEq

/-- A procedure of a type. -/
structure Procedure where
  name : String
  parameters : List Parameter
  generics : List String
  returns : TypeRef
  attributes : List Attribute
  modifiers : Modifiers
  /-- The body, unless it has been moved out. -/
  body : Option Body
  origin : Origin

namespace Procedure

/-- A procedure of a name that anyone may call, without parameters or result, that does nothing. -/
def declare (name : String) : Procedure :=
  { name, parameters := [], generics := [], returns := .void, attributes := []
    modifiers := .default, body := some .justLeave, origin := .declared }

/-- A procedure generated for a key. -/
def synthesize (key : SynthKey) (modifiers : Modifiers) (parameters : List Parameter)
    (body : Body) : Procedure :=
  { name := key.mangledName, parameters, generics := [], returns := .void, attributes := []
    modifiers, body := some body, origin := .synthesized key }

/-- The types of the parameters. -/
def types (p : Procedure) : List TypeRef := p.parameters.map (·.type)

/-- The name and the types of the parameters. -/
def signature (p : Procedure) : Signature := ⟨p.name, p.types⟩

/-- Whether a call may end up at an override instead. -/
def isVirtual (p : Procedure) : Bool := p.modifiers.isVirtual || p.modifiers.isOverride

/-- Whether the user declared the procedure. -/
def isDeclared (p : Procedure) : Bool := p.origin == .declared

theorem isDeclared_of_synthesized {p : Procedure} {key : SynthKey}
    (h : p.origin = .synthesized key) : p.isDeclared = false := by
  rw [isDeclared, h]
  rfl

theorem origin_ne_of_isDeclared {p : Procedure} (h : p.isDeclared = true) (key : SynthKey) :
    p.origin ≠ .synthesized key := by
  intro ho
  cases (isDeclared_of_synthesized ho).symm.trans h

/-- The same procedure with another body. -/
def withBody (p : Procedure) (body : Body) : Procedure := { p with body := some body }

@[simp] theorem signature_withBody (p : Procedure) (b : Body) :
    (p.withBody b).signature = p.signature := rfl

@[simp] theorem origin_withBody (p : Procedure) (b : Body) : (p.withBody b).origin = p.origin := rfl

end Procedure

end RpcLoom
