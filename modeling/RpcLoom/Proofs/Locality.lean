/-
RpcLoom/Proofs/Locality.lean

Weaving an assembly is weaving each of its types alone.

Design.  `alone` is what weaving a type comes to in an assembly that nothing
has been woven in yet.  Weaving another type changes no face, and that type
alone; so weaving all types in an order that names each of them once puts
together what each comes to alone (`gathers_weaveTypes`): the types, the reports and
errors, everything said, the tables and the links.
-/
import Mathlib.Data.List.Nodup
import RpcLoom.Proofs.Again
import RpcLoom.Proofs.Chains
import RpcLoom.Weave.Weaving

namespace RpcLoom

/-! ### One type -/

/-- What weaving the type at a position comes to. -/
def Loom.alone (loom : Loom) (a : Assembly) (i : TypeId) : Log × Except WeaveError TypeWeaving :=
  match IdCounter.ofAncestors a i loom.settings.allowance, a.type i with
  | .ok counter, .ok t =>
    match loom.weaveTypeDef t counter with
    | (log, .error e) => (log ++ Log.error e.message, .error e)
    | (log, .ok woven) => (log, .ok woven)
  | .error e, _ => (Log.error e.message, .error (.declaration e))
  | .ok _, .error e => (Log.error e.message, .error (.declaration e))

namespace Weaving

/-- A link kept for later, unless it is kept already. -/
def keepLink (links : List LogicLink) (link : LogicLink) : List LogicLink :=
  if links.contains link then links else links ++ [link]

/-- What a type leaves to be linked. -/
def linksOf : Except WeaveError TypeWeaving → List LogicLink
  | .ok woven => woven.links
  | .error _ => []

/-- What becomes of a type. -/
def becomes (t : TypeDef) : Except WeaveError TypeWeaving → TypeDef
  | .ok woven => woven.type
  | .error _ => t

/-- The table a type has, if it has one. -/
def tableOf : Except WeaveError TypeWeaving → Option DispatchTable
  | .ok woven => some woven.table
  | .error _ => none

/-- The report on a type, if there is one. -/
def reportOf : Except WeaveError TypeWeaving → Option TypeReport
  | .ok woven => some woven.report
  | .error _ => none

/-- Why nothing was woven in a type. -/
def errorOf : Except WeaveError TypeWeaving → Option WeaveError
  | .ok _ => none
  | .error e => some e

/-- A state takes up what weaving the type at a position comes to. -/
structure Absorbs (w : Weaving) (i : TypeId) (t : TypeDef)
    (x : Log × Except WeaveError TypeWeaving) (w' : Weaving) : Prop where
  assembly : w'.assembly = w.assembly.set i (becomes t x.2)
  links : w'.links = (linksOf x.2).foldl keepLink w.links
  log : w'.log = w.log ++ x.1
  table? : ∀ name, w'.table? name = if t.name = name then tableOf x.2 else w.table? name

theorem foldl_addLink (w : Weaving) (links : List LogicLink) :
    links.foldl Weaving.addLink w = { w with links := links.foldl keepLink w.links } := by
  induction links generalizing w with
  | nil => rfl
  | cons link rest ih =>
    have hstep : w.addLink link = { w with links := keepLink w.links link } := by
      rw [addLink, keepLink]
      by_cases h : w.links.contains link = true
      · rw [if_pos h, if_pos h]
      · rw [if_neg h, if_neg h]
    rw [List.foldl_cons, hstep, ih]
    rfl

theorem find?_filter_ne (tables : List (String × DispatchTable)) {name other : String}
    (h : other ≠ name) :
    (tables.filter (·.1 != other)).find? (·.1 == name) = tables.find? (·.1 == name) := by
  rw [List.find?_filter]
  congr 1
  funext x
  by_cases hx : x.1 = name
  · simp [hx, h.symm]
  · simp [hx]

theorem find?_filter_self (tables : List (String × DispatchTable)) (name : String) :
    (tables.filter (·.1 != name)).find? (·.1 == name) = none := by
  rw [List.find?_filter, List.find?_eq_none]
  intro x _
  by_cases hx : x.1 = name <;> simp [hx]

theorem table?_dropTable (w : Weaving) (other name : String) :
    (w.dropTable other).table? name = if other = name then none else w.table? name := by
  rw [table?, dropTable, table?]
  by_cases h : other = name
  · subst h
    simp only [find?_filter_self, if_true, Option.map_none]
  · simp only [find?_filter_ne _ h, if_neg h]

theorem table?_setTable (w : Weaving) (other name : String) (table : DispatchTable) :
    (w.setTable other table).table? name = if other = name then some table else w.table? name := by
  rw [table?, setTable, table?]
  by_cases h : other = name
  · simp [h]
  · simp only [if_neg h]
    rw [List.find?_cons_of_neg (by simpa using h), find?_filter_ne _ h]

end Weaving

namespace Loom

open Weaving

variable {loom : Loom} {a : Assembly} {w w' : Weaving} {i : TypeId}

/-- A type with a counter is woven as its definition and the counter say. -/
theorem alone_eq {t : TypeDef} {counter : IdCounter} (ht : a.type? i = some t)
    (hc : IdCounter.ofAncestors a i loom.settings.allowance = .ok counter) :
    loom.alone a i =
      match loom.weaveTypeDef t counter with
      | (log, .error e) => (log ++ Log.error e.message, .error e)
      | (log, .ok woven) => (log, .ok woven) := by
  simp only [alone, hc, Assembly.type, ht]

/-- What weaving one type of an assembly does. -/
theorem weaveType_eq (loom : Loom) {t : TypeDef} {above : List TypeId}
    (ht : w.assembly.type? i = some t) (hab : w.assembly.ancestors i = .ok above) :
    ∃ w', loom.weaveType w i = (w', (loom.alone w.assembly i).2.map (·.report)) ∧
      w.Absorbs i t (loom.alone w.assembly i) w' := by
  obtain ⟨counter, hc⟩ := Assembly.ofAncestors_of_ancestors hab loom.settings.allowance
  have hself : w.assembly.set i t = w.assembly := Assembly.set_self ht
  have hweave : loom.weaveType w i = loom.weaveKnownType w i t counter := by
    rw [weaveType]
    simp only [hc, Assembly.type, ht, bind, Except.bind]
  rw [alone_eq ht hc, hweave, weaveKnownType]
  rcases loom.weaveTypeDef t counter with ⟨log, e | woven⟩
  · refine ⟨_, rfl, hself.symm, rfl, ?_, fun name => table?_dropTable w t.name name⟩
    simp only [say, dropTable, List.append_assoc]
  · refine ⟨_, rfl, ?_, ?_, ?_, fun name => ?_⟩
    · simp only [say, setTable, foldl_addLink, becomes]
    · simp only [say, setTable, foldl_addLink, linksOf]
    · simp only [say, setTable, foldl_addLink]
    · show (Weaving.setTable _ t.name woven.table).table? name = _
      rw [table?_setTable, foldl_addLink]
      rfl

/-- A type whose ancestors are not known is left alone. -/
theorem weaveType_of_unknown (loom : Loom) {e : DeclError}
    (hab : w.assembly.ancestors i = .error e) :
    loom.weaveType w i = (w.say (Log.error e.message), .error (.declaration e)) := by
  simp only [weaveType, IdCounter.ofAncestors, hab, bind, Except.bind]

/-- Weaving a type keeps its face. -/
theorem face_weaveTypeDef {t : TypeDef} {counter : IdCounter} {log : Log} {v : TypeWeaving}
    (h : loom.weaveTypeDef t counter = (log, .ok v)) : v.type.face = t.face := by
  obtain ⟨-, -, turns, hturns, -⟩ := turns_of_weaveTypeDef h
  exact TypeDef.face_eq_iff.mpr ⟨hturns.name_eq, hturns.base_eq, hturns.outline_eq⟩

theorem alone_cases (loom : Loom) {t : TypeDef} {above : List TypeId} (ht : a.type? i = some t)
    (hab : a.ancestors i = .ok above) :
    ∃ counter, IdCounter.ofAncestors a i loom.settings.allowance = .ok counter ∧
      ((∃ log e, loom.weaveTypeDef t counter = (log, .error e) ∧
          loom.alone a i = (log ++ Log.error e.message, .error e)) ∨
        ∃ log v, loom.weaveTypeDef t counter = (log, .ok v) ∧ loom.alone a i = (log, .ok v)) := by
  obtain ⟨counter, hc⟩ := Assembly.ofAncestors_of_ancestors hab loom.settings.allowance
  refine ⟨counter, hc, ?_⟩
  rw [alone_eq ht hc]
  rcases loom.weaveTypeDef t counter with ⟨log, e | v⟩
  · exact .inl ⟨log, e, rfl, rfl⟩
  · exact .inr ⟨log, v, rfl, rfl⟩

theorem face_becomes {t : TypeDef} {above : List TypeId} (ht : a.type? i = some t)
    (hab : a.ancestors i = .ok above) : (becomes t (loom.alone a i).2).face = t.face := by
  obtain ⟨counter, -, ⟨log, e, -, h⟩ | ⟨log, v, hv, h⟩⟩ := alone_cases loom ht hab
  · rw [h, becomes]
  · rw [h, becomes, face_weaveTypeDef hv]

/-- What weaving a type comes to depends on that type, and on the faces of the others. -/
theorem alone_congr {b : Assembly} (h : a.faces = b.faces) (ht : a.type? i = b.type? i) :
    loom.alone a i = loom.alone b i := by
  simp only [alone, Assembly.ofAncestors_congr h, Assembly.type, ht]

/-- A state takes up what weaving several types comes to, each of them alone. -/
structure Gathers (loom : Loom) (a : Assembly) (w : Weaving) (order : List TypeId) (w' : Weaving)
    (o : Outcome) : Prop where
  faces : w'.assembly.faces = a.faces
  type? : ∀ i, w'.assembly.type? i =
    if i ∈ order then (w.assembly.type? i).map (becomes · (loom.alone a i).2)
    else w.assembly.type? i
  links : w'.links =
    (order.flatMap fun i => linksOf (loom.alone a i).2).foldl keepLink w.links
  log : w'.log = w.log ++ order.flatMap fun i => (loom.alone a i).1
  table? : ∀ name, w'.table? name =
    order.foldl (fun table i =>
      if (a.type? i).map (·.name) = some name then tableOf (loom.alone a i).2 else table)
      (w.table? name)
  reports : o.reports = order.filterMap fun i => reportOf (loom.alone a i).2
  errors : o.errors = order.filterMap fun i => errorOf (loom.alone a i).2

theorem gathers_weaveTypes {order : List TypeId} (hnodup : order.Nodup)
    (hknown : ∀ i ∈ order, ∃ t above, a.type? i = some t ∧ a.ancestors i = .ok above)
    (hfaces : w.assembly.faces = a.faces)
    (hsame : ∀ i ∈ order, w.assembly.type? i = a.type? i) :
    loom.Gathers a w order (loom.weaveTypes w order).1 (loom.weaveTypes w order).2 := by
  induction order generalizing w with
  | nil => exact ⟨hfaces, fun i => by simp [weaveTypes], rfl, by simp [weaveTypes],
      fun name => rfl, rfl, rfl⟩
  | cons i rest ih =>
    obtain ⟨hi, hnodup⟩ := List.nodup_cons.mp hnodup
    obtain ⟨t, above, ht, hab⟩ := hknown i (by simp)
    have htw : w.assembly.type? i = some t := (hsame i (by simp)).trans ht
    have habw : w.assembly.ancestors i = .ok above := by rw [Assembly.ancestors_congr hfaces, hab]
    -- the types woven before have changed, but not in what this type reads of them
    have halone : loom.alone w.assembly i = loom.alone a i :=
      alone_congr hfaces (hsame i (by simp))
    obtain ⟨w₁, hw₁, habs⟩ := weaveType_eq loom htw habw
    rw [halone] at hw₁ habs
    have hfaces₁ : w₁.assembly.faces = a.faces := by
      rw [habs.assembly, Assembly.faces_set htw (face_becomes ht hab), hfaces]
    have hother : ∀ k, k ≠ i → w₁.assembly.type? k = w.assembly.type? k := fun k hk => by
      rw [habs.assembly, Assembly.type?_set_of_ne _ _ hk.symm]
    have hne : ∀ k ∈ rest, k ≠ i := fun k hk hki => hi (hki ▸ hk)
    have hrest := ih (w := w₁) hnodup (fun k hk => hknown k (by simp [hk])) hfaces₁
      fun k hk => (hother k (hne k hk)).trans (hsame k (by simp [hk]))
    have hthis : w₁.assembly.type? i = some (becomes t (loom.alone a i).2) := by
      rw [habs.assembly, Assembly.type?_set_self htw]
    have hstep : (loom.weaveTypes w (i :: rest)).1 = (loom.weaveTypes w₁ rest).1 ∧
        (loom.weaveTypes w (i :: rest)).2 =
          ⟨(reportOf (loom.alone a i).2).toList ++ (loom.weaveTypes w₁ rest).2.reports,
            (errorOf (loom.alone a i).2).toList ++ (loom.weaveTypes w₁ rest).2.errors⟩ := by
      simp only [weaveTypes, hw₁]
      rcases (loom.alone a i).2 with e | v <;> exact ⟨rfl, rfl⟩
    rw [hstep.1, hstep.2]
    refine ⟨hrest.faces, fun k => ?_, ?_, ?_, fun name => ?_, ?_, ?_⟩
    · rw [hrest.type?]
      by_cases hk : k = i
      · subst hk
        simp [hi, hthis, htw]
      · simp [hk, hother k hk]
    · rw [hrest.links, habs.links, List.flatMap_cons, List.foldl_append]
    · rw [hrest.log, habs.log, List.flatMap_cons, List.append_assoc]
    · rw [hrest.table?, habs.table?, List.foldl_cons, ht]
      simp
    · rw [hrest.reports, List.filterMap_cons]
      cases reportOf (loom.alone a i).2 <;> rfl
    · rw [hrest.errors, List.filterMap_cons]
      cases errorOf (loom.alone a i).2 <;> rfl

/-- Weaving without an order says why and leaves all as it is. -/
theorem weave_of_error (loom : Loom) {w : Weaving} {e : DeclError}
    (h : w.assembly.hierarchyOrder = .error e) :
    loom.weave w = (w.say (Log.error e.message), ⟨[], [.declaration e]⟩) := by
  rw [weave]
  simp only [h]

/-- Weaving in an order gathers all types in it and then leads base calls on. -/
theorem weave_of_order (loom : Loom) {w : Weaving} {order : List TypeId}
    (h : w.assembly.hierarchyOrder = .ok order) :
    ∃ v o, loom.Gathers w.assembly w order v o ∧
      loom.weave w =
        (v.linkBases.1, { o with errors := o.errors ++ v.linkBases.2.map .link }) := by
  obtain ⟨hnodup, hknown⟩ := Assembly.of_hierarchyOrder h
  refine ⟨_, _, gathers_weaveTypes hnodup hknown rfl fun _ _ => rfl, ?_⟩
  rw [weave]
  simp only [h]

/-- Weaving fails for want of an order, or gathers all types in order and then leads base calls
on. -/
theorem weave_cases (loom : Loom) (w : Weaving) :
    (∃ e, w.assembly.hierarchyOrder = .error e ∧
      loom.weave w = (w.say (Log.error e.message), ⟨[], [.declaration e]⟩)) ∨
    ∃ order v o, w.assembly.hierarchyOrder = .ok order ∧ loom.Gathers w.assembly w order v o ∧
      loom.weave w =
        (v.linkBases.1, { o with errors := o.errors ++ v.linkBases.2.map .link }) := by
  cases h : w.assembly.hierarchyOrder with
  | error e => exact .inl ⟨e, rfl, loom.weave_of_error h⟩
  | ok order =>
    obtain ⟨v, o, hgathers, hresult⟩ := loom.weave_of_order h
    exact .inr ⟨order, v, o, rfl, hgathers, hresult⟩

end Loom

namespace Assembly

variable {a : Assembly} {i : TypeId} {t : TypeDef}

/-- Where names differ, a type is found by its name. -/
theorem NamesDiffer.find? (h : a.NamesDiffer) (ht : a.type? i = some t) :
    a.find? t.name = some i := by
  obtain ⟨hi, rfl⟩ := List.getElem?_eq_some_iff.mp ht
  refine List.findIdx?_eq_some_iff_getElem.mpr ⟨hi, by simp, fun k hk hname => ?_⟩
  have hk' : k < a.types.length := Nat.lt_trans hk hi
  have hki := List.pairwise_iff_getElem.mp h k i (by simpa using hk') (by simpa using hi) hk
  exact hki (by simpa using hname)

theorem NamesDiffer.eq_of_name_eq (h : a.NamesDiffer) {k : TypeId} {u : TypeDef}
    (ht : a.type? i = some t) (hu : a.type? k = some u) (hname : t.name = u.name) : i = k := by
  have hi := h.find? ht
  rw [hname, h.find? hu] at hi
  exact (Option.some.inj hi).symm

end Assembly

/-- A type that was woven is what it came to in its turn. -/
theorem Loom.Gathers.type?_eq {loom : Loom} {a : Assembly} {w' : Weaving} {order : List TypeId}
    {o : Outcome} (h : loom.Gathers a (.start a) order w' o) {i : TypeId} {t : TypeDef} {log : Log}
    {v : TypeWeaving} (hi : i ∈ order) (ht : a.type? i = some t)
    (halone : loom.alone a i = (log, .ok v)) : w'.assembly.type? i = some v.type := by
  rw [h.type?, if_pos hi, halone]
  show (a.type? i).map _ = _
  rw [ht]
  rfl

/-- Where names differ, the table of a type is the one it was given in its turn. -/
theorem Loom.Gathers.table?_eq {loom : Loom} {a : Assembly} {w w' : Weaving}
    {order : List TypeId} {o : Outcome} (h : loom.Gathers a w order w' o) (hnodup : order.Nodup)
    (hnames : a.NamesDiffer) {i : TypeId} {t : TypeDef} (hi : i ∈ order)
    (ht : a.type? i = some t) : w'.table? t.name = Weaving.tableOf (loom.alone a i).2 := by
  have hone : ∀ k, (a.type? k).map (·.name) = some t.name ↔ k = i := by
    intro k
    constructor
    · intro hk
      obtain ⟨u, hu, hname⟩ := Option.map_eq_some_iff.mp hk
      exact hnames.eq_of_name_eq hu ht hname
    · rintro rfl
      rw [ht, Option.map_some]
  -- no other type has the name, so nothing that comes later overwrites the table
  have hfold : ∀ (is : List TypeId) (start : Option DispatchTable), is.Nodup →
      is.foldl (fun table k => if (a.type? k).map (·.name) = some t.name then
        Weaving.tableOf (loom.alone a k).2 else table) start =
      if i ∈ is then Weaving.tableOf (loom.alone a i).2 else start := by
    intro is
    induction is with
    | nil => intro start _; rfl
    | cons k is ih =>
      intro start hn
      obtain ⟨hk, hn⟩ := List.nodup_cons.mp hn
      rw [List.foldl_cons, ih _ hn]
      by_cases hki : k = i
      · subst hki
        simp [hk, hone]
      · have : i ≠ k := Ne.symm hki
        simp [hone, hki, this]
  rw [h.table?, hfold order _ hnodup, if_pos hi]

end RpcLoom
