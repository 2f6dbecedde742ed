/-
RpcLoom/Weave/Weaving.lean

Weaving a whole assembly.

Design.  The state of weaving is the assembly, the dispatch table of every type
woven so far, the virtual logic whose base calls are still to be looked at, and
everything said so far.  Types are woven after those they derive from.  When
all are woven, base calls are led to base logic.  Weaving one type changes that
type alone.
-/
import RpcLoom.Weave.TypeWeaving

namespace RpcLoom

/-- The state of weaving. -/
structure Weaving where
  assembly : Assembly
  /-- The dispatch tables by the name of their type. -/
  tables : List (String × DispatchTable)
  /-- The virtual logic met since base calls were last led on. -/
  links : List LogicLink
  log : Log

/-- What has become of an assembly. -/
structure Outcome where
  reports : List TypeReport
  /-- What failed for a whole type, or while base calls were led on. -/
  errors : List WeaveError
  deriving DecidableEq

namespace Outcome

/-- The report on a type. -/
def report? (o : Outcome) (typeName : String) : Option TypeReport :=
  o.reports.find? (·.typeName == typeName)

/-- Every failure: those of whole types first, then those of procedures. -/
def allErrors (o : Outcome) : List WeaveError := o.errors ++ o.reports.flatMap (·.errors)

/-- Whether nothing failed. -/
def isSuccess (o : Outcome) : Bool := o.allErrors.isEmpty

end Outcome

namespace Weaving

/-- The state before anything is woven. -/
def start (a : Assembly) : Weaving := ⟨a, [], [], []⟩

/-- The dispatch table of a type. -/
def table? (w : Weaving) (typeName : String) : Option DispatchTable :=
  (w.tables.find? (·.1 == typeName)).map (·.2)

/-- Forgets the dispatch table of a type. -/
def dropTable (w : Weaving) (typeName : String) : Weaving :=
  { w with tables := w.tables.filter (·.1 != typeName) }

/-- Puts a dispatch table in the place of the one of a type. -/
def setTable (w : Weaving) (typeName : String) (table : DispatchTable) : Weaving :=
  { w with tables := (typeName, table) :: w.tables.filter (·.1 != typeName) }

/-- Says something. -/
def say (w : Weaving) (log : Log) : Weaving := { w with log := w.log ++ log }

/-- Keeps virtual logic for later, unless it is kept already. -/
def addLink (w : Weaving) (link : LogicLink) : Weaving :=
  if w.links.contains link then w else { w with links := w.links ++ [link] }

/-- Leads the base calls of one link's logic on; a failure is said and given back. -/
def follow (w : Weaving) (link : LogicLink) : Weaving × Option LinkError :=
  match link.redirect w.assembly with
  | .ok (assembly, _) => ({ w with assembly }, none)
  | .error e => (w.say (Log.error e.message), some e)

/-- Leads the base calls of the logic of several links on, in order. -/
def followAll (w : Weaving) : List LogicLink → Weaving × List LinkError
  | [] => (w, [])
  | link :: rest =>
    let (w, error) := w.follow link
    let (w, errors) := w.followAll rest
    (w, error.toList ++ errors)

/-- Leads the base calls of all logic kept so far on, and forgets it. -/
def linkBases (w : Weaving) : Weaving × List LinkError :=
  { w with links := [] }.followAll w.links

end Weaving

namespace Loom

/-- Weaves a type known by its position and its definition. -/
def weaveKnownType (loom : Loom) (w : Weaving) (i : TypeId) (t : TypeDef)
    (counter : IdCounter) : Weaving × Except WeaveError TypeReport :=
  match loom.weaveTypeDef t counter with
  | (log, .error e) => (((w.dropTable t.name).say log).say (Log.error e.message), .error e)
  | (log, .ok woven) =>
    let w := { w with assembly := w.assembly.set i woven.type }
    let w := woven.links.foldl Weaving.addLink w
    ((w.setTable t.name woven.table).say log, .ok woven.report)

/-- Weaves one type.  A failure for the whole type registers nothing. -/
def weaveType (loom : Loom) (w : Weaving) (i : TypeId) :
    Weaving × Except WeaveError TypeReport :=
  let found := do
    let counter ← IdCounter.ofAncestors w.assembly i loom.settings.allowance
    let t ← w.assembly.type i
    .ok (t, counter)
  match found with
  | .error e => (w.say (Log.error e.message), .error (.declaration e))
  | .ok (t, counter) => loom.weaveKnownType w i t counter

/-- Weaves several types, in order. -/
def weaveTypes (loom : Loom) (w : Weaving) : List TypeId → Weaving × Outcome
  | [] => (w, ⟨[], []⟩)
  | i :: rest =>
    let (w, result) := loom.weaveType w i
    let (w, outcome) := loom.weaveTypes w rest
    match result with
    | .ok report => (w, { outcome with reports := report :: outcome.reports })
    | .error e => (w, { outcome with errors := e :: outcome.errors })

/-- Weaves every type of the assembly, and then leads base calls to base logic. -/
def weave (loom : Loom) (w : Weaving) : Weaving × Outcome :=
  match w.assembly.hierarchyOrder with
  | .error e => (w.say (Log.error e.message), ⟨[], [.declaration e]⟩)
  | .ok order =>
    let (w, outcome) := loom.weaveTypes w order
    let (w, errors) := w.linkBases
    (w, { outcome with errors := outcome.errors ++ errors.map .link })

end Loom

end RpcLoom
