/-
RpcLoom/Weave/BaseCall.lean

Leading the base calls of relocated code to relocated code.

Design.  User code that has become the logic of a virtual procedure may call
the base implementation of that procedure.  After weaving, the base
implementation only sends again, so such calls are led to the logic on the
nearest type above that has one.  A call counts if it names the procedure's own
signature on a type above, at any depth of the code.  Nothing is changed unless
there is such a call and such logic.
-/
import RpcLoom.Weave.Error
import RpcLoom.Decl.Assembly

namespace RpcLoom

/-- Logic whose base calls are still to be looked at. -/
structure LogicLink where
  typeName : String
  logic : ProcedureId
  /-- The procedure whose code the logic holds. -/
  served : Signature
  deriving DecidableEq

namespace LogicLink

/-- Whether a reference names the link's own procedure on one of the types above. -/
def isBaseRef (link : LogicLink) (above : List String) (ref : MethodRef) : Bool :=
  ref.signature == link.served && above.contains ref.owner

/-- Whether an instruction calls the link's own procedure on one of the types above. -/
def isBaseCall (link : LogicLink) (above : List String) (i : Instruction) : Bool :=
  i.method?.any (link.isBaseRef above)

/-- Leads an instruction to `ref` if it is such a call, and counts it. -/
def retarget (link : LogicLink) (above : List String) (ref : MethodRef) (i : Instruction) :
    StateM Nat Instruction := do
  if link.isBaseCall above i then
    modify (· + 1)
    pure (i.withMethod ref)
  else
    pure i

/-- Leads the base calls of a link's logic to the logic above: the assembly then, and how many
calls were changed. -/
def redirect (link : LogicLink) (a : Assembly) : Except LinkError (Assembly × Nat) := do
  let i ← (a.find link.typeName).mapError .declaration
  let above ← (a.ancestors i).mapError .declaration
  let names := above.filterMap fun j => (a.type? j).map (·.name)
  let t ← (a.type i).mapError .declaration
  let logic ← (t.procedure link.logic).mapError .declaration
  match logic.body with
  | none => .ok (a, 0)
  | some body =>
    if !body.nested.any (link.isBaseCall names) then .ok (a, 0)
    else
      match ← (a.findInBase? i ⟨logic.name, link.served.types⟩).mapError .declaration with
      | none => .error (.baseLogicNotFound link.typeName logic.name)
      | some ref =>
        let (body, patched) := (body.mapNestedM (link.retarget names ref)).run 0
        .ok (a.set i (t.modify link.logic (·.withBody body)), patched)

end LogicLink

end RpcLoom
