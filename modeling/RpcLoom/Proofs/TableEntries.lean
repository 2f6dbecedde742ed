/-
RpcLoom/Proofs/TableEntries.lean

A dispatch table holds what was registered, and nothing else.

Design.  A table is built by inserting the entries of all handlers one by one.
As long as their keys differ no entry takes the place of another, so the table
is a rearrangement of the entries (`entries_ofRegistrations`).  The keys differ
because the ids of a type go up.
-/
import RpcLoom.Weave.Dispatch
import Mathlib.Data.List.Nodup

namespace RpcLoom

/-- What a handler of a registration is known by, and where its calls go. -/
def Handler.entry (r : Registration) (h : Handler) : CallKey × DispatchEntry :=
  (⟨h.kind, r.id⟩, ⟨h.readerRef, r.runLocally, h.policy⟩)

/-- The entries that a registration asks for. -/
def Registration.entries (r : Registration) : List (CallKey × DispatchEntry) :=
  r.handlers.map (·.entry r)

namespace DispatchTable

theorem perm_insertInto {key : CallKey} (entry : DispatchEntry)
    {es : List (CallKey × DispatchEntry)} (h : key ∉ es.map (·.1)) :
    (insertInto key entry es).Perm ((key, entry) :: es) := by
  induction es with
  | nil => exact .refl _
  | cons e rest ih =>
    obtain ⟨k, e⟩ := e
    rw [List.map_cons, List.mem_cons, not_or] at h
    rw [insertInto, if_neg (Ne.symm h.1)]
    by_cases hp : key.precedes k = true
    · rw [if_pos hp]
    · rw [if_neg hp]
      exact ((ih h.2).cons _).trans (.swap _ _ _)

theorem perm_foldl_insertInto (new : List (CallKey × DispatchEntry))
    (es : List (CallKey × DispatchEntry)) (h : ((es ++ new).map (·.1)).Nodup) :
    (new.foldl (fun es x => insertInto x.1 x.2 es) es).Perm (es ++ new) := by
  induction new generalizing es with
  | nil => rw [List.append_nil]; exact .refl _
  | cons x rest ih =>
    have hfirst : x.1 ∉ es.map (·.1) := by
      intro hx
      rw [List.map_append, List.nodup_append] at h
      exact h.2.2 _ hx _ (by simp) rfl
    have hinsert := perm_insertInto x.2 hfirst
    have hmiddle : (insertInto x.1 x.2 es ++ rest).Perm (es ++ x :: rest) :=
      (hinsert.append_right rest).trans List.perm_middle.symm
    rw [List.foldl_cons]
    exact (ih _ ((hmiddle.map _).nodup_iff.mpr h)).trans hmiddle

theorem entries_register (t : DispatchTable) (r : Registration) :
    (t.register r).entries =
      r.entries.foldl (fun es x => insertInto x.1 x.2 es) t.entries := by
  rw [register, Registration.entries, List.foldl_map]
  generalize r.handlers = hs
  induction hs generalizing t with
  | nil => rfl
  | cons h hs ih =>
    rw [List.foldl_cons, List.foldl_cons, ih]
    rfl

/-- A table is built of the entries that registrations ask for, one after the other. -/
theorem entries_foldl_register (rs : List Registration) (t : DispatchTable) :
    (rs.foldl register t).entries =
      (rs.flatMap (·.entries)).foldl (fun es x => insertInto x.1 x.2 es) t.entries := by
  induction rs generalizing t with
  | nil => rfl
  | cons r rs ih => rw [List.foldl_cons, ih, entries_register, List.flatMap_cons, List.foldl_append]

/-- Registrations that ask for the same entries have one table. -/
theorem ofRegistrations_congr {rs rs' : List Registration}
    (h : rs.flatMap (·.entries) = rs'.flatMap (·.entries)) :
    ofRegistrations rs = ofRegistrations rs' := by
  rw [DispatchTable.mk.injEq, ofRegistrations, entries_foldl_register, h,
    ← entries_foldl_register, ofRegistrations]

/-- A table whose keys differ holds exactly the entries that were registered. -/
theorem entries_ofRegistrations {rs : List Registration}
    (h : ((rs.flatMap (·.entries)).map (·.1)).Nodup) :
    (ofRegistrations rs).entries.Perm (rs.flatMap (·.entries)) := by
  rw [ofRegistrations, entries_foldl_register]
  exact perm_foldl_insertInto _ _ h

/-- The keys of registrations with different ids and different kinds differ. -/
theorem nodup_keys {rs : List Registration} (hids : (rs.map (·.id)).Nodup)
    (hkinds : ∀ r ∈ rs, (r.handlers.map (·.kind)).Nodup) :
    ((rs.flatMap (·.entries)).map (·.1)).Nodup := by
  rw [List.map_flatMap, List.nodup_flatMap]
  have hkeys : ∀ r : Registration, r.entries.map (·.1) = r.handlers.map fun h => ⟨h.kind, r.id⟩ :=
    fun r => by
      rw [Registration.entries, List.map_map]
      rfl
  refine ⟨fun r hr => ?_, (List.pairwise_map.mp hids).imp fun {r r'} hne => ?_⟩
  · rw [hkeys]
    refine List.Nodup.of_map CallKey.kind ?_
    rw [List.map_map]
    exact hkinds r hr
  · show List.Disjoint (r.entries.map (·.1)) (r'.entries.map (·.1))
    rw [hkeys, hkeys]
    intro k hk hk'
    obtain ⟨h, -, rfl⟩ := List.mem_map.mp hk
    obtain ⟨h', -, he⟩ := List.mem_map.mp hk'
    exact hne (congrArg CallKey.id he).symm

/-- What a table whose keys differ gives for a key is what it holds for it. -/
theorem get?_eq_some_iff {t : DispatchTable} (h : (t.entries.map (·.1)).Nodup) {kind : Kind}
    {id : RpcId} {entry : DispatchEntry} :
    t.get? kind id = some entry ↔ (⟨kind, id⟩, entry) ∈ t.entries := by
  rw [get?, Option.map_eq_some_iff]
  constructor
  · rintro ⟨⟨key, e⟩, hfind, rfl⟩
    obtain rfl : key = ⟨kind, id⟩ := by simpa using List.find?_some hfind
    exact List.mem_of_find?_eq_some hfind
  · intro hmem
    cases hfind : t.entries.find? (·.1 == ⟨kind, id⟩) with
    | none =>
      have := List.find?_eq_none.mp hfind _ hmem
      simp at this
    | some x =>
      obtain ⟨key, e⟩ := x
      obtain rfl : key = ⟨kind, id⟩ := by simpa using List.find?_some hfind
      refine ⟨_, rfl, ?_⟩
      exact congrArg Prod.snd
        (List.inj_on_of_nodup_map h (List.mem_of_find?_eq_some hfind) hmem rfl)

end DispatchTable

end RpcLoom
