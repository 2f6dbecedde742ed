/-
RpcLoom/Decl/Assembly.lean

A table of types, and the chains of types that derive from one another.

Design.  Types are known by position and by name; names are unique because
adding refuses a second one.  A type names the type it derives from, which may
be declared later, or never, or close a circle.  The walk upwards counts the
types it has not met: while one is left it may go on, and when none is left
any further base has been met before.
-/
import RpcLoom.Decl.TypeDef

namespace RpcLoom

/-- The position of a type in its assembly. -/
abbrev TypeId := Nat

/-- A table of types. -/
structure Assembly where
  types : List TypeDef

namespace Assembly

/-- The assembly without types. -/
def empty : Assembly := ⟨[]⟩

/-- The type at a position. -/
def type? (a : Assembly) (i : TypeId) : Option TypeDef := a.types[i]?

/-- The type at a position, or what to say if there is none. -/
def type (a : Assembly) (i : TypeId) : Except DeclError TypeDef :=
  match a.type? i with
  | some t => .ok t
  | none => .error (.unknownTypeIndex i)

/-- The position of the type of a name. -/
def find? (a : Assembly) (name : String) : Option TypeId :=
  a.types.findIdx? (·.name == name)

/-- The position of the type of a name, or what to say if there is none. -/
def find (a : Assembly) (name : String) : Except DeclError TypeId :=
  match a.find? name with
  | some i => .ok i
  | none => .error (.typeNotFound name)

/-- Adds a type at the end: the assembly that has it, and its position. -/
def add (a : Assembly) (t : TypeDef) : Except DeclError (Assembly × TypeId) :=
  if (a.find? t.name).isSome then .error (.duplicateType t.name)
  else .ok (⟨a.types ++ [t]⟩, a.types.length)

/-- Puts a type in the place of the one at a position. -/
def set (a : Assembly) (i : TypeId) (t : TypeDef) : Assembly := ⟨a.types.set i t⟩

@[simp] theorem length_types_set (a : Assembly) (i : TypeId) (t : TypeDef) :
    (a.set i t).types.length = a.types.length := by simp [set]

theorem type?_set_self {a : Assembly} {i : TypeId} {t old : TypeDef} (h : a.type? i = some old) :
    (a.set i t).type? i = some t := by
  obtain ⟨hi, -⟩ := List.getElem?_eq_some_iff.mp h
  simp [type?, set, hi]

/-- Putting a type at one position leaves the others as they are. -/
theorem type?_set_of_ne (a : Assembly) {i j : TypeId} (t : TypeDef) (h : i ≠ j) :
    (a.set i t).type? j = a.type? j := by
  simp [type?, set, List.getElem?_set_ne h]

/-- A type of the same name in the place of one changes no look-up by name. -/
theorem find?_set {a : Assembly} {i : TypeId} {t old : TypeDef} (h : a.type? i = some old)
    (hname : t.name = old.name) (name : String) : (a.set i t).find? name = a.find? name := by
  have hmap : (a.types.set i t).map (·.name) = a.types.map (·.name) := by
    obtain ⟨hi, hold⟩ := List.getElem?_eq_some_iff.mp h
    apply List.ext_getElem?
    intro j
    by_cases hj : i = j
    · subst hj; simp [hi, hold, hname]
    · simp [List.getElem?_set_ne hj]
  have hfind (ts : List TypeDef) :
      ts.findIdx? (·.name == name) = (ts.map (·.name)).findIdx? (· == name) := by
    rw [List.findIdx?_map]; rfl
  rw [find?, find?, hfind, hfind]
  exact congrArg _ hmap

/-- Adding appends a type whose name is new. -/
theorem add_eq_ok_iff {a a' : Assembly} {t : TypeDef} {i : TypeId} :
    a.add t = .ok (a', i) ↔
      a.find? t.name = none ∧ a' = ⟨a.types ++ [t]⟩ ∧ i = a.types.length := by
  unfold add
  cases h : a.find? t.name <;> simp [eq_comm]

/-! ### Chains -/

/-- The types above `current`, nearest first.  `met` are the types met so far, `unmet` is the
number of the others, and `origin` is where the walk began. -/
def climb (a : Assembly) (origin : String) : (unmet : Nat) → (met : List TypeId) →
    (current : TypeDef) → Except DeclError (List TypeId)
  | unmet, met, current =>
    match current.base with
    | none => .ok []
    | some base =>
      match a.find? base with
      | none => .error (.baseTypeNotFound current.name base)
      | some i =>
        if met.contains i then .error (.inheritanceCycle origin)
        else
          match unmet, a.type? i with
          | unmet + 1, some next => do
            let above ← a.climb origin unmet (i :: met) next
            .ok (i :: above)
          | _, _ => .error (.inheritanceCycle origin)

/-- The types a type derives from, nearest first. -/
def ancestors (a : Assembly) (i : TypeId) : Except DeclError (List TypeId) := do
  let origin ← a.type i
  a.climb origin.name (a.types.length - 1) [i] origin

/-- A type and the types it derives from, nearest first. -/
def chain (a : Assembly) (i : TypeId) : Except DeclError (List TypeId) := do
  let above ← a.ancestors i
  .ok (i :: above)

/-- The members of a list that another list does not have, added at its end. -/
def addNew (seen new : List TypeId) : List TypeId :=
  seen ++ new.filter (!seen.contains ·)

/-- All types, every one after those it derives from, and otherwise in the order of their
declaration. -/
def hierarchyOrder (a : Assembly) : Except DeclError (List TypeId) :=
  (List.range a.types.length).foldlM
    (fun seen i => do
      let chain ← a.chain i
      .ok (addNew seen chain.reverse))
    []

/-! ### Procedures along a chain -/

/-- The first type of a list with a procedure that `find?` finds, and that procedure. -/
def firstWith (a : Assembly) (find? : TypeDef → Option ProcedureId) (is : List TypeId) :
    Option (TypeId × ProcedureId) :=
  is.findSome? fun i => do
    let t ← a.type? i
    let id ← find? t
    some (i, id)

/-- The type and the procedure that a reference stands for. -/
def resolve (a : Assembly) (m : MethodRef) : Except DeclError (TypeId × ProcedureId) := do
  let owner ← a.find m.owner
  let chain ← a.chain owner
  match a.firstWith (·.findSignature? m.signature) chain with
  | some found => .ok found
  | none => .error (.methodNotFound m.owner m.name)

/-- A reference to the procedure of a signature on the nearest type above that has one. -/
def findInBase? (a : Assembly) (i : TypeId) (s : Signature) :
    Except DeclError (Option MethodRef) := do
  let above ← a.ancestors i
  .ok <| (a.firstWith (·.findSignature? s) above).bind fun (j, _) =>
    (a.type? j).map fun t => ⟨t.name, s.name, s.types⟩

/-- A reference to the first procedure of a name on a type or, failing that, on the nearest type
above that has one. -/
def methodNamed (a : Assembly) (typeName name : String) : Except DeclError MethodRef := do
  let owner ← a.find typeName
  let chain ← a.chain owner
  let found := (a.firstWith (·.findName? name) chain).bind fun (i, id) => do
    let t ← a.type? i
    let p ← t.procedure? id
    some (⟨t.name, name, p.types⟩ : MethodRef)
  match found with
  | some ref => .ok ref
  | none => .error (.methodNotFound typeName name)

end Assembly

end RpcLoom
