/-
RpcLoom/Weave/TypeWeaving.lean

Weaving the remote calls of one type.

Design.  What becomes of a type depends on the type, on the id its own calls
begin at, and on the weaver, and on nothing else.  All declared procedures are
judged first.  If the remote calls among them need too many ids, the type stays
as it is.  Otherwise they are woven one by one: a success takes the next id, a
failure leaves the procedure with an empty body and takes none.
-/
import RpcLoom.Weave.IdCounter
import RpcLoom.Weave.BaseCall
import RpcLoom.Weave.Dispatch

namespace RpcLoom

/-- What has become of a type. -/
structure TypeReport where
  typeName : String
  /-- The procedures woven, in the order of their declaration. -/
  registrations : List Registration
  /-- Why the others are refused or cleared. -/
  errors : List WeaveError
  deriving DecidableEq

/-- A type in the course of weaving. -/
structure TypeWeaving where
  type : TypeDef
  counter : IdCounter
  registrations : List Registration
  errors : List WeaveError
  /-- The virtual logic met so far. -/
  links : List LogicLink
  log : Log

namespace TypeDef

/-- The contracts of the declared procedures that are remote calls, in order. -/
def contracts (t : TypeDef) (codec : Codec) : List (ProcedureId × Contract) :=
  t.declared.filterMap fun (id, p) =>
    match p.contract? codec with
    | .ok (some c) => some (id, c)
    | _ => none

/-- Why declared procedures are refused, in order. -/
def rejections (t : TypeDef) (codec : Codec) : List Rejection :=
  t.declared.filterMap fun (_, p) =>
    match p.contract? codec with
    | .error r => some r
    | .ok _ => none

/-- The link of a woven procedure, if its logic is virtual. -/
def logicLink? (t : TypeDef) (id logic : ProcedureId) : Option LogicLink := do
  let p ← t.procedure? id
  let l ← t.procedure? logic
  if l.isVirtual then some ⟨t.name, logic, p.signature⟩ else none

end TypeDef

namespace Loom

/-- Generates the procedures for one remote call and makes it forward to them. -/
def weaveProcedure (loom : Loom) (t : TypeDef) (id : ProcedureId) (c : Contract)
    (rpcId : RpcId) : Log × EStateM.Result SynthesisError TypeDef Triad :=
  match loom.synthesize t id c rpcId with
  | (log, .error e t) => (log, .error e t)
  | (log, .ok triad t) =>
    match t.redirect id c triad with
    | .error e => (log, .error e t)
    | .ok t => (log, .ok triad t)

/-- Weaves one remote call into a type in the course of weaving. -/
def weaveNext (loom : Loom) (w : TypeWeaving) (id : ProcedureId) (c : Contract) : TypeWeaving :=
  match loom.weaveProcedure w.type id c w.counter.next with
  | (log, .error e t) =>
    { w with
      type := t.modify id (·.withBody .justLeave)
      errors := w.errors ++ [.synthesis e]
      log := w.log ++ log ++ Log.error e.message }
  | (log, .ok triad t) =>
    let (rpcId, counter) := w.counter.assign
    { w with
      type := t
      counter
      registrations := w.registrations ++ [.ofTriad rpcId id c triad]
      links := w.links ++ (t.logicLink? id triad.logic).toList
      log := w.log ++ log }

/-- A type before the first of its remote calls is woven. -/
def beginType (loom : Loom) (t : TypeDef) (counter : IdCounter) : TypeWeaving where
  type := t
  counter
  registrations := []
  errors := (t.rejections loom.codec).map .rejection
  links := []
  log := (t.rejections loom.codec).flatMap fun r => Log.error r.message

/-- Weaves the remote calls of a type: what is said meanwhile, and either why nothing was woven or
the type in its final state. -/
def weaveTypeDef (loom : Loom) (t : TypeDef) (counter : IdCounter) :
    Log × Except WeaveError TypeWeaving :=
  let contracts := t.contracts loom.codec
  let start := loom.beginType t counter
  if counter.fits contracts.length then
    let woven := contracts.foldl (fun w (id, c) => loom.weaveNext w id c) start
    (woven.log, .ok woven)
  else
    let required := counter.next.addCapped (.ofCount contracts.length)
    (start.log, .error (.quotaExceeded t.name required counter.ceiling))

end Loom

/-- The report of a woven type. -/
def TypeWeaving.report (w : TypeWeaving) : TypeReport :=
  ⟨w.type.name, w.registrations, w.errors⟩

/-- The dispatch table of a woven type. -/
def TypeWeaving.table (w : TypeWeaving) : DispatchTable := .ofRegistrations w.registrations

end RpcLoom
