/-
RpcLoom/Weave/Dispatch.lean

From the kind and the id of a received call to its receiver.

Design.  A table is a list in the order of kinds and then of ids, with at most
one entry for each pair; a new entry takes the place of an old one.  A
procedure sent to observers and to a target has one id and an entry for each.
-/
import RpcLoom.Weave.Triad

namespace RpcLoom

/-- The receiver for one kind of a remote call. -/
structure Handler where
  kind : Kind
  reader : ProcedureId
  readerRef : MethodRef
  policy : Policy
  deriving DecidableEq

/-- All that is needed to route the calls of one procedure. -/
structure Registration where
  id : RpcId
  procedure : ProcedureId
  kinds : KindSet
  runLocally : Bool
  handlers : List Handler
  deriving DecidableEq

/-- The registration of a procedure under an id. -/
def Registration.ofTriad (id : RpcId) (procedure : ProcedureId) (c : Contract) (triad : Triad) :
    Registration where
  id
  procedure
  kinds := c.kinds
  runLocally := c.runLocally
  handlers := c.kinds.toList.filterMap fun kind =>
    (triad.reader? kind).map fun stub => ⟨kind, stub.id, stub.ref, c.policy kind⟩

/-- Where a received call goes. -/
structure DispatchEntry where
  reader : MethodRef
  runLocally : Bool
  policy : Policy
  deriving DecidableEq

/-- What a received call is known by. -/
structure CallKey where
  kind : Kind
  id : RpcId
  deriving DecidableEq

/-- The order of a table: by kind, then by id. -/
def CallKey.precedes (j k : CallKey) : Bool :=
  j.kind.rank < k.kind.rank || (j.kind == k.kind && j.id < k.id)

/-- The table of one type. -/
structure DispatchTable where
  entries : List (CallKey × DispatchEntry)
  deriving DecidableEq

namespace DispatchTable

/-- The table without entries. -/
def empty : DispatchTable := ⟨[]⟩

/-- Puts an entry in its place in a list in the order of a table. -/
def insertInto (key : CallKey) (entry : DispatchEntry) :
    List (CallKey × DispatchEntry) → List (CallKey × DispatchEntry)
  | [] => [(key, entry)]
  | (k, e) :: rest =>
    if k = key then (key, entry) :: rest
    else if key.precedes k then (key, entry) :: (k, e) :: rest
    else (k, e) :: insertInto key entry rest

/-- Adds an entry, in the place of one under the same key. -/
def insert (t : DispatchTable) (key : CallKey) (entry : DispatchEntry) : DispatchTable :=
  ⟨insertInto key entry t.entries⟩

/-- Adds an entry for each handler of a registration. -/
def register (t : DispatchTable) (r : Registration) : DispatchTable :=
  r.handlers.foldl
    (fun t h => t.insert ⟨h.kind, r.id⟩ ⟨h.readerRef, r.runLocally, h.policy⟩) t

/-- The table of a list of registrations. -/
def ofRegistrations (rs : List Registration) : DispatchTable := rs.foldl register empty

/-- The entry for a kind and an id. -/
def get? (t : DispatchTable) (kind : Kind) (id : RpcId) : Option DispatchEntry :=
  (t.entries.find? (·.1 == ⟨kind, id⟩)).map (·.2)

/-- How many entries there are. -/
def size (t : DispatchTable) : Nat := t.entries.length

/-- Whether there are no entries. -/
def isEmpty (t : DispatchTable) : Bool := t.entries.isEmpty

/-- The ids registered for a kind, in order. -/
def ids (t : DispatchTable) (kind : Kind) : List RpcId :=
  (t.entries.filter (·.1.kind == kind)).map (·.1.id)

/-! ### Look-up after insertion -/

theorem find?_insertInto (key k : CallKey) (entry : DispatchEntry)
    (es : List (CallKey × DispatchEntry)) :
    (insertInto key entry es).find? (·.1 == k) =
      if key = k then some (key, entry) else es.find? (·.1 == k) := by
  induction es with
  | nil => by_cases h : key = k <;> simp [insertInto, h]
  | cons e rest ih =>
    obtain ⟨j, e⟩ := e
    by_cases hk : key = k <;> by_cases hj : j = key <;> by_cases hp : key.precedes j <;>
      simp_all [insertInto, List.find?_cons]

/-- An inserted entry is found under its key, and every other key finds what it found. -/
theorem get?_insert (t : DispatchTable) (key : CallKey) (entry : DispatchEntry) (kind : Kind)
    (id : RpcId) :
    (t.insert key entry).get? kind id =
      if key = ⟨kind, id⟩ then some entry else t.get? kind id := by
  by_cases h : key = ⟨kind, id⟩ <;> simp [get?, insert, find?_insertInto, h]

end DispatchTable

end RpcLoom
