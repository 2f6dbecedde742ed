/-
RpcLoom/Decl/Attribute.lean

Annotations on procedures.

Design.  An annotation has a name and named fields.  A field may be given more
than once, and then the last value counts.  A field that is expected to be a
truth value and is something else counts as absent.
-/
namespace RpcLoom

/-- The value of an annotation's field. -/
inductive AttributeValue where
  | bool (value : Bool)
  | int (value : Int)
  | text (value : String)
  deriving DecidableEq

/-- An annotation. -/
structure Attribute where
  name : String
  fields : List (String × AttributeValue)
  deriving DecidableEq

namespace Attribute

/-- The value of a field: the last one given under its name. -/
def field? (a : Attribute) (name : String) : Option AttributeValue :=
  (a.fields.reverse.find? (·.1 == name)).map (·.2)

/-- The truth value of a field, or `default` if it is absent or of another sort. -/
def flag (a : Attribute) (name : String) (default : Bool) : Bool :=
  match a.field? name with
  | some (.bool value) => value
  | _ => default

end Attribute

end RpcLoom
