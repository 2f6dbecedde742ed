/-
RpcLoom/Decl/TypeDef.lean

Types with their procedures.

Design.  A procedure is known inside its type by its position, and positions
never change: procedures are added at the end or replaced where they stand.
Every look-up gives the first procedure that fits.  Adding refuses a second
procedure of one signature and a second one generated for one key; replacing
asks only that the new procedure comes from where the old one came from.
-/
import RpcLoom.Decl.Procedure
import RpcLoom.Decl.Error

namespace RpcLoom

/-- The position of a procedure in its type. -/
abbrev ProcedureId := Nat

/-- A type with its procedures. -/
structure TypeDef where
  name : String
  base : Option String
  procedures : List Procedure

namespace TypeDef

/-- A type without procedures. -/
def empty (name : String) (base : Option String) : TypeDef := ⟨name, base, []⟩

/-! ### Look-up -/

/-- The procedure at a position. -/
def procedure? (t : TypeDef) (id : ProcedureId) : Option Procedure := t.procedures[id]?

/-- The procedure at a position, or what to say if there is none. -/
def procedure (t : TypeDef) (id : ProcedureId) : Except DeclError Procedure :=
  match t.procedure? id with
  | some p => .ok p
  | none => .error (.procedureNotFound t.name id)

/-- The position of the procedure with a signature. -/
def findSignature? (t : TypeDef) (s : Signature) : Option ProcedureId :=
  t.procedures.findIdx? (·.signature == s)

/-- The position of the first procedure of a name. -/
def findName? (t : TypeDef) (name : String) : Option ProcedureId :=
  t.procedures.findIdx? (·.name == name)

/-- The position of the procedure generated for a key. -/
def findSynthesized? (t : TypeDef) (key : SynthKey) : Option ProcedureId :=
  t.procedures.findIdx? (·.origin == .synthesized key)

/-- The declared procedures with their positions, in order. -/
def declared (t : TypeDef) : List (ProcedureId × Procedure) :=
  (t.procedures.zipIdx.filter (·.1.isDeclared)).map fun (p, id) => (id, p)

/-! ### Change -/

/-- Adds a procedure at the end: the type that has it, and its position. -/
def add (t : TypeDef) (p : Procedure) : Except DeclError (TypeDef × ProcedureId) :=
  if (t.findSignature? p.signature).isSome then
    .error (.duplicateSignature t.name p.signature.text)
  else
    let added := ({ t with procedures := t.procedures ++ [p] }, t.procedures.length)
    match p.origin with
    | .declared => .ok added
    | .synthesized key =>
      if (t.findSynthesized? key).isSome then .error (.duplicateSynthesized t.name p.name)
      else .ok added

/-- A type whose procedures are added one by one. -/
def ofProcedures (name : String) (base : Option String) (ps : List Procedure) :
    Except DeclError TypeDef :=
  ps.foldlM (fun t p => (t.add p).map (·.1)) (empty name base)

/-- Changes the procedure at a position, if there is one. -/
def modify (t : TypeDef) (id : ProcedureId) (f : Procedure → Procedure) : TypeDef :=
  { t with procedures := t.procedures.modify id f }

/-- Puts a procedure in the place of one of the same origin: the type that has it, and the
procedure that was there. -/
def replace (t : TypeDef) (id : ProcedureId) (p : Procedure) :
    Except DeclError (TypeDef × Procedure) :=
  match t.procedure? id with
  | none => .error (.procedureNotFound t.name id)
  | some old =>
    if old.origin = p.origin then .ok (t.modify id fun _ => p, old)
    else .error (.originMismatch t.name p.name)

@[simp] theorem name_modify (t : TypeDef) (id : ProcedureId) (f : Procedure → Procedure) :
    (t.modify id f).name = t.name := rfl

@[simp] theorem base_modify (t : TypeDef) (id : ProcedureId) (f : Procedure → Procedure) :
    (t.modify id f).base = t.base := rfl

@[simp] theorem procedures_modify (t : TypeDef) (id : ProcedureId) (f : Procedure → Procedure) :
    (t.modify id f).procedures = t.procedures.modify id f := rfl

/-! ### What a change leaves as it was -/

/-- Adding keeps everything and appends one procedure, whose position is the old length. -/
theorem eq_of_add {t t' : TypeDef} {p : Procedure} {id : ProcedureId}
    (h : t.add p = .ok (t', id)) :
    t' = { t with procedures := t.procedures ++ [p] } ∧ id = t.procedures.length := by
  unfold add at h
  split at h
  · simp at h
  · split at h
    · simpa [eq_comm] using h
    · split at h
      · simp at h
      · simpa [eq_comm] using h

/-- A procedure at an old position is still there after adding. -/
theorem procedure?_of_add {t t' : TypeDef} {p : Procedure} {id : ProcedureId}
    (h : t.add p = .ok (t', id)) {i : ProcedureId} (hi : i < t.procedures.length) :
    t'.procedure? i = t.procedure? i := by
  obtain ⟨rfl, -⟩ := eq_of_add h
  simp [procedure?, List.getElem?_append_left hi]

/-- The added procedure is at the position that is given back. -/
theorem procedure?_added {t t' : TypeDef} {p : Procedure} {id : ProcedureId}
    (h : t.add p = .ok (t', id)) : t'.procedure? id = some p := by
  obtain ⟨rfl, rfl⟩ := eq_of_add h
  simp [procedure?]

theorem procedure?_modify (t : TypeDef) (id : ProcedureId) (f : Procedure → Procedure)
    (i : ProcedureId) :
    (t.modify id f).procedure? i = if id = i then (t.procedure? i).map f else t.procedure? i := by
  by_cases h : id = i <;> simp [procedure?, h]

/-- What a change leaves as it is of one procedure it leaves as it is of all. -/
theorem map_procedures_modify {β : Type} {t : TypeDef} {id : ProcedureId}
    {f : Procedure → Procedure} (g : Procedure → β)
    (h : ∀ p, t.procedure? id = some p → g (f p) = g p) :
    (t.modify id f).procedures.map g = t.procedures.map g := by
  apply List.ext_getElem?
  intro k
  simp only [List.getElem?_map, procedures_modify, List.getElem?_modify]
  by_cases hk : id = k
  · subst hk
    cases hp : t.procedures[id]? with
    | none => simp
    | some p => simp [h p hp]
  · simp [hk]

/-- Replacing succeeds exactly for a procedure of the same origin, and gives the old one back. -/
theorem replace_eq_ok_iff {t t' : TypeDef} {id : ProcedureId} {p old : Procedure} :
    t.replace id p = .ok (t', old) ↔
      t.procedure? id = some old ∧ old.origin = p.origin ∧ t' = t.modify id fun _ => p := by
  unfold replace
  split
  next h => simp [h]
  next found h =>
    by_cases ho : found.origin = p.origin
    · simp only [ho, if_true, Except.ok.injEq, Prod.mk.injEq, h, Option.some.injEq]
      constructor
      · rintro ⟨rfl, rfl⟩; exact ⟨rfl, ho, rfl⟩
      · rintro ⟨rfl, -, rfl⟩; exact ⟨rfl, rfl⟩
    · simp only [ho, if_false, reduceCtorEq, h, Option.some.injEq, false_iff]
      rintro ⟨rfl, h', -⟩
      exact ho h'

end TypeDef

end RpcLoom
