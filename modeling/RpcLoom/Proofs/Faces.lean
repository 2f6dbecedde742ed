/-
RpcLoom/Proofs/Faces.lean

What the rest of an assembly sees of a type.

Design.  The face of a type is its name, its base and its outline.  Chains and
the order of weaving are read from names and bases alone (`Alike.ancestors`,
`Alike.hierarchyOrder`), and the counter that a type begins with is read from
faces (`ofAncestors_congr`).  Weaving keeps every face, so what becomes of one
type can be said before any other is woven.

The walk upwards is described by a relation without fuel, `Above`, which has one
result at most and whose tails are the walks from further up.
-/
import RpcLoom.Proofs.Outline
import RpcLoom.Weave.IdCounter

namespace RpcLoom

/-- What the rest of an assembly sees of a type. -/
structure TypeDef.Face where
  name : String
  base : Option String
  outline : List (ProcedureId × Procedure)

def TypeDef.face (t : TypeDef) : TypeDef.Face := ⟨t.name, t.base, t.outline⟩

theorem TypeDef.face_eq_iff {t u : TypeDef} :
    t.face = u.face ↔ t.name = u.name ∧ t.base = u.base ∧ t.outline = u.outline := by
  simp [face]

namespace Assembly

/-- The faces of all types, in order. -/
def faces (a : Assembly) : List TypeDef.Face := a.types.map (·.face)

/-- No two types share their name. -/
def NamesDiffer (a : Assembly) : Prop := (a.types.map (·.name)).Nodup

instance (a : Assembly) : Decidable a.NamesDiffer :=
  inferInstanceAs (Decidable (a.types.map (·.name)).Nodup)

variable {a b : Assembly}

/-- A type in the place of one that looks the same is not seen. -/
theorem map_types_set {α : Type} (f : TypeDef → α) {i : TypeId} {t old : TypeDef}
    (h : a.type? i = some old) (hf : f t = f old) : (a.set i t).types.map f = a.types.map f := by
  rw [set, List.map_set, hf]
  obtain ⟨hi, hold⟩ := List.getElem?_eq_some_iff.mp h
  rw [← hold, ← List.getElem_map (f := f) (h := by simpa using hi)]
  exact List.set_getElem_self _

theorem set_self {i : TypeId} {t : TypeDef} (h : a.type? i = some t) : a.set i t = a := by
  obtain ⟨hi, hget⟩ := List.getElem?_eq_some_iff.mp h
  rw [set, ← hget, List.set_getElem_self]

theorem faces_set {i : TypeId} {t old : TypeDef} (h : a.type? i = some old)
    (hface : t.face = old.face) : (a.set i t).faces = a.faces :=
  map_types_set _ h hface

/-! ### What is read from faces -/

/-- At a position both assemblies have types of one face, or neither has a type. -/
theorem type?_congr (h : a.faces = b.faces) (i : TypeId) :
    (a.type? i = none ∧ b.type? i = none) ∨
      ∃ t u, a.type? i = some t ∧ b.type? i = some u ∧ t.face = u.face := by
  have hface : (a.type? i).map (·.face) = (b.type? i).map (·.face) := by
    have := congrArg (·[i]?) h
    simpa [faces, type?] using this
  cases ha : a.type? i with
  | none =>
    rw [ha, Option.map_none, eq_comm, Option.map_eq_none_iff] at hface
    exact .inl ⟨rfl, hface⟩
  | some t =>
    rw [ha, Option.map_some, eq_comm, Option.map_eq_some_iff] at hface
    obtain ⟨u, hu, hface⟩ := hface
    exact .inr ⟨t, u, rfl, hu, hface.symm⟩

/-- Two assemblies have types of the same names, deriving from the same types, in the same order. -/
def Alike (a b : Assembly) : Prop :=
  a.types.map (fun t => (t.name, t.base)) = b.types.map fun t => (t.name, t.base)

theorem alike_of_faces (h : a.faces = b.faces) : a.Alike b := by
  have := congrArg (List.map fun f : TypeDef.Face => (f.name, f.base)) h
  simpa [Alike, faces, TypeDef.face, Function.comp_def] using this

theorem Alike.trans {c : Assembly} (h : a.Alike b) (h' : b.Alike c) : a.Alike c :=
  Eq.trans h h'

theorem Alike.names (h : a.Alike b) : a.types.map (·.name) = b.types.map (·.name) := by
  have := congrArg (List.map Prod.fst) h
  simpa [Function.comp_def] using this

/-- At a position both assemblies have types of one name and one base, or neither has a type. -/
theorem Alike.type? (h : a.Alike b) (i : TypeId) :
    (a.type? i = none ∧ b.type? i = none) ∨
      ∃ t u, a.type? i = some t ∧ b.type? i = some u ∧ t.name = u.name ∧ t.base = u.base := by
  have hsame : (a.type? i).map (fun t => (t.name, t.base)) =
      (b.type? i).map fun t => (t.name, t.base) := by
    have := congrArg (·[i]?) h
    simpa [Assembly.type?] using this
  cases ha : a.type? i with
  | none =>
    rw [ha, Option.map_none, eq_comm, Option.map_eq_none_iff] at hsame
    exact .inl ⟨rfl, hsame⟩
  | some t =>
    rw [ha, Option.map_some, eq_comm, Option.map_eq_some_iff] at hsame
    obtain ⟨u, hu, hsame⟩ := hsame
    obtain ⟨hname, hbase⟩ := Prod.mk.inj hsame
    exact .inr ⟨t, u, rfl, hu, hname.symm, hbase.symm⟩

theorem names_congr (h : a.faces = b.faces) : a.types.map (·.name) = b.types.map (·.name) :=
  (alike_of_faces h).names

theorem Alike.namesDiffer (h : a.Alike b) (hnames : a.NamesDiffer) : b.NamesDiffer := by
  show (b.types.map (·.name)).Nodup
  rw [← h.names]
  exact hnames

theorem NamesDiffer.congr (h : a.NamesDiffer) (hfaces : a.faces = b.faces) : b.NamesDiffer :=
  (alike_of_faces hfaces).namesDiffer h

theorem Alike.length (h : a.Alike b) : a.types.length = b.types.length := by
  simpa using congrArg List.length h

theorem find?_eq (a : Assembly) (name : String) :
    a.find? name = (a.types.map (·.name)).findIdx? (· == name) := by
  rw [find?, List.findIdx?_map]
  rfl

/-- Whatever is added type by type has types of different names. -/
theorem NamesDiffer.add {i : TypeId} {t : TypeDef} (h : a.NamesDiffer)
    (hadd : a.add t = .ok (b, i)) : b.NamesDiffer := by
  obtain ⟨hnew, rfl, -⟩ := add_eq_ok_iff.mp hadd
  rw [find?_eq, List.findIdx?_eq_none_iff] at hnew
  show ((a.types ++ [t]).map (·.name)).Nodup
  rw [List.map_append, List.map_singleton, List.nodup_append]
  refine ⟨h, by simp, fun x hx y hy => ?_⟩
  rw [List.mem_singleton.mp hy]
  simpa using hnew x hx

theorem Alike.find? (h : a.Alike b) (name : String) : a.find? name = b.find? name := by
  rw [find?_eq, find?_eq, h.names]

theorem find?_congr (h : a.faces = b.faces) (name : String) : a.find? name = b.find? name :=
  (alike_of_faces h).find? name

theorem Alike.climb (h : a.Alike b) (origin : String) (unmet : Nat) (met : List TypeId)
    {t u : TypeDef} (hname : t.name = u.name) (hbase : t.base = u.base) :
    a.climb origin unmet met t = b.climb origin unmet met u := by
  induction unmet generalizing met t u with
  | zero =>
    unfold Assembly.climb
    rw [← hbase, ← hname]
    cases t.base with
    | none => rfl
    | some base => simp only [h.find?]
  | succ unmet ih =>
    unfold Assembly.climb
    rw [← hbase, ← hname]
    cases t.base with
    | none => rfl
    | some base =>
      simp only [h.find?]
      cases b.find? base with
      | none => rfl
      | some i =>
        rcases h.type? i with ⟨ha, hb⟩ | ⟨t', u', ha, hb, h₁, h₂⟩
        · simp only [ha, hb]
        · simp only [ha, hb, ih (i :: met) h₁ h₂]

theorem Alike.ancestors (h : a.Alike b) (i : TypeId) : a.ancestors i = b.ancestors i := by
  unfold Assembly.ancestors Assembly.type
  rcases h.type? i with ⟨ha, hb⟩ | ⟨t, u, ha, hb, h₁, h₂⟩
  · rw [ha, hb]
    rfl
  · rw [ha, hb]
    show a.climb t.name (a.types.length - 1) [i] t = b.climb u.name (b.types.length - 1) [i] u
    rw [h.length, h₁, h.climb _ _ _ h₁ h₂]

theorem ancestors_congr (h : a.faces = b.faces) (i : TypeId) : a.ancestors i = b.ancestors i :=
  (alike_of_faces h).ancestors i

theorem Alike.chain (h : a.Alike b) (i : TypeId) : a.chain i = b.chain i := by
  rw [Assembly.chain, h.ancestors, Assembly.chain]

theorem chain_congr (h : a.faces = b.faces) (i : TypeId) : a.chain i = b.chain i :=
  (alike_of_faces h).chain i

theorem Alike.hierarchyOrder (h : a.Alike b) : a.hierarchyOrder = b.hierarchyOrder := by
  simp only [Assembly.hierarchyOrder, h.length, h.chain]

theorem hierarchyOrder_congr (h : a.faces = b.faces) : a.hierarchyOrder = b.hierarchyOrder :=
  (alike_of_faces h).hierarchyOrder

theorem remoteCount_congr (h : a.faces = b.faces) (i : TypeId) :
    (a.type? i).map (·.remoteCount) = (b.type? i).map (·.remoteCount) := by
  rcases type?_congr h i with ⟨ha, hb⟩ | ⟨t, u, ha, hb, hface⟩
  · rw [ha, hb]
  · obtain ⟨-, -, h₃⟩ := TypeDef.face_eq_iff.mp hface
    rw [ha, hb, Option.map_some, Option.map_some, TypeDef.remoteCount_congr h₃]

theorem ofAncestors_congr (h : a.faces = b.faces) (i : TypeId) (ceiling : UInt32) :
    IdCounter.ofAncestors a i ceiling = IdCounter.ofAncestors b i ceiling := by
  simp only [IdCounter.ofAncestors, ancestors_congr h, remoteCount_congr h]

end Assembly

end RpcLoom
