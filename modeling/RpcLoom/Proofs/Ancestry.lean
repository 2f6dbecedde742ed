/-
RpcLoom/Proofs/Ancestry.lean

Where the walk upwards from a type ends.

Design.  From a type one goes up to the type that its base names (`Assembly.Up`),
which is one type at most.  So what one comes to by going up from a type lies on
one line, and that either has an end or runs in a circle: it ends at a type without
a base, or at one whose base is not declared, or comes back to where it was.

The walk keeps the types it has met.  Each of them leads to where it stands, and
together with those it has not met they are all types (`Walked`).  So a type that it
meets again leads back to itself, and a walk that has met every type meets one again.

Main result.  `Assembly.ancestors_iff`.
-/
import Mathlib.Logic.Relation
import RpcLoom.Proofs.Chains

namespace RpcLoom

open Relation (ReflTransGen TransGen)

namespace Assembly

variable {a : Assembly} {t u : TypeDef} {i j k c : TypeId} {l met : List TypeId} {unmet : Nat}
  {base name origin : String}

/-! ### Going up -/

/-- The base that the type at one position names is the type at the other. -/
inductive Up (a : Assembly) : TypeId → TypeId → Prop
  | intro {i j : TypeId} {t : TypeDef} {base : String} (ht : a.type? i = some t)
      (hbase : t.base = some base) (hfind : a.find? base = some j) : Up a i j

/-- From a type one goes up to one type at most. -/
theorem up_rightUnique (a : Assembly) : Relator.RightUnique a.Up := by
  rintro i j k ⟨ht, hbase, hfind⟩ ⟨ht', hbase', hfind'⟩
  obtain rfl := Option.some.inj (ht.symm.trans ht')
  obtain rfl := Option.some.inj (hbase.symm.trans hbase')
  exact Option.some.inj (hfind.symm.trans hfind')

/-! ### Three ways to end -/

/-- Going up from a type one comes to a type that has no base. -/
def Rooted (a : Assembly) (i : TypeId) : Prop :=
  ∃ j t, ReflTransGen a.Up i j ∧ a.type? j = some t ∧ t.base = none

/-- Going up from a type one comes to a type of the first name, whose base has the second name and
is not declared. -/
def Lacking (a : Assembly) (i : TypeId) (name base : String) : Prop :=
  ∃ j t, ReflTransGen a.Up i j ∧ a.type? j = some t ∧ t.name = name ∧ t.base = some base ∧
    a.find? base = none

/-- Going up from a type one comes to a type from which one comes back to it. -/
def Circling (a : Assembly) (i : TypeId) : Prop :=
  ∃ j, ReflTransGen a.Up i j ∧ TransGen a.Up j j

/-- From a type without a base one goes up no further. -/
theorem not_up_of_root (ht : a.type? i = some t) (hbase : t.base = none) : ¬ a.Up i j := by
  rintro ⟨ht', hbase', -⟩
  obtain rfl := Option.some.inj (ht.symm.trans ht')
  cases hbase.symm.trans hbase'

/-- From a type whose base is not declared one goes up no further. -/
theorem not_up_of_lack (ht : a.type? i = some t) (hbase : t.base = some base)
    (hfind : a.find? base = none) : ¬ a.Up i j := by
  rintro ⟨ht', hbase', hfind'⟩
  obtain rfl := Option.some.inj (ht.symm.trans ht')
  obtain rfl := Option.some.inj (hbase.symm.trans hbase')
  cases hfind.symm.trans hfind'

/-- The line has one end at most. -/
theorem end_unique (hj : ReflTransGen a.Up i j) (hjend : ∀ x, ¬ a.Up j x)
    (hk : ReflTransGen a.Up i k) (hkend : ∀ x, ¬ a.Up k x) : j = k := by
  have hstay : ∀ {x y}, ReflTransGen a.Up x y → (∀ z, ¬ a.Up x z) → x = y := by
    intro x y hxy hend
    rcases hxy.cases_head with rfl | ⟨z, hxz, -⟩
    · rfl
    · exact absurd hxz (hend z)
  rcases hj.total_of_right_unique a.up_rightUnique hk with hjk | hkj
  · exact hstay hjk hjend
  · exact (hstay hkj hkend).symm

/-- Whatever one comes to from a type that leads back to itself leads back to it as well. -/
theorem back_of_circle (hcircle : TransGen a.Up j j) (hjk : ReflTransGen a.Up j k) :
    ReflTransGen a.Up k j := by
  induction hjk with
  | refl => exact .refl
  | @tail x y _ hxy ih =>
    -- one goes on from `x` to `j`, or stands at `j` and goes round
    have hround : TransGen a.Up x j := .trans_right ih hcircle
    obtain ⟨z, hxz, hzj⟩ := TransGen.head'_iff.mp hround
    rwa [a.up_rightUnique hxy hxz]

/-- A line that runs in a circle has no end. -/
theorem Circling.no_end (h : a.Circling i) (hk : ReflTransGen a.Up i k) : ∃ x, a.Up k x := by
  obtain ⟨j, hij, hcircle⟩ := h
  have hkj : ReflTransGen a.Up k j := by
    rcases hij.total_of_right_unique a.up_rightUnique hk with hjk | hkj
    · exact back_of_circle hcircle hjk
    · exact hkj
  obtain ⟨x, hkx, -⟩ := TransGen.head'_iff.mp (TransGen.trans_right hkj hcircle)
  exact ⟨x, hkx⟩

/-- Where one comes to a type, one began at a type. -/
theorem type?_ne_none (h : ReflTransGen a.Up i j) (ht : a.type? j = some t) :
    a.type? i ≠ none := by
  intro hnone
  rcases h.cases_head with rfl | ⟨k, ⟨ht', -, -⟩, -⟩
  · cases hnone.symm.trans ht
  · cases hnone.symm.trans ht'

theorem Above.rooted (h : a.Above t l) (ht : a.type? i = some t) : a.Rooted i := by
  induction h generalizing i with
  | root hbase => exact ⟨i, _, .refl, ht, hbase⟩
  | derived hbase hfind hu _ ih =>
    obtain ⟨j, u, hreach, hj, hroot⟩ := ih hu
    exact ⟨j, u, .head ⟨ht, hbase, hfind⟩ hreach, hj, hroot⟩

theorem Rooted.not_lacking (h : a.Rooted i) : ¬ a.Lacking i name base := by
  rintro ⟨k, u, hk, hu, -, hbase, hfind⟩
  obtain ⟨j, t, hj, ht, hroot⟩ := h
  obtain rfl := end_unique hj (fun _ => not_up_of_root ht hroot) hk
    (fun _ => not_up_of_lack hu hbase hfind)
  obtain rfl := Option.some.inj (ht.symm.trans hu)
  cases hroot.symm.trans hbase

theorem Rooted.not_circling (h : a.Rooted i) : ¬ a.Circling i := by
  intro hcircling
  obtain ⟨j, t, hj, ht, hroot⟩ := h
  obtain ⟨x, hjx⟩ := hcircling.no_end hj
  exact not_up_of_root ht hroot hjx

theorem Lacking.not_circling (h : a.Lacking i name base) : ¬ a.Circling i := by
  intro hcircling
  obtain ⟨j, t, hj, ht, -, hbase, hfind⟩ := h
  obtain ⟨x, hjx⟩ := hcircling.no_end hj
  exact not_up_of_lack ht hbase hfind hjx

theorem Lacking.unique {name' base' : String} (h : a.Lacking i name base)
    (h' : a.Lacking i name' base') : name = name' ∧ base = base' := by
  obtain ⟨j, t, hj, ht, rfl, hbase, hfind⟩ := h
  obtain ⟨k, u, hk, hu, rfl, hbase', hfind'⟩ := h'
  obtain rfl := end_unique hj (fun _ => not_up_of_lack ht hbase hfind) hk
    (fun _ => not_up_of_lack hu hbase' hfind')
  obtain rfl := Option.some.inj (ht.symm.trans hu)
  exact ⟨rfl, Option.some.inj (hbase.symm.trans hbase')⟩

/-! ### The walk -/

/-- A walk that began at the type at `i` stands at the one at `c`: it has met `met`, and `unmet`
types are left. -/
structure Walked (a : Assembly) (i : TypeId) (met : List TypeId) (c : TypeId) (unmet : Nat) :
    Prop where
  reached : ReflTransGen a.Up i c
  back : ∀ k ∈ met, ReflTransGen a.Up k c
  once : met.Nodup
  known : ∀ k ∈ met, k < a.types.length
  count : met.length + unmet = a.types.length

theorem walked_start (ht : a.type? i = some t) :
    a.Walked i [i] i (a.types.length - 1) := by
  have hi : i < a.types.length := (List.getElem?_eq_some_iff.mp ht).1
  refine ⟨.refl, fun k hk => ?_, List.pairwise_singleton .., fun k hk => ?_, ?_⟩
  · rw [List.mem_singleton.mp hk]
  · rwa [List.mem_singleton.mp hk]
  · exact Nat.add_sub_cancel' (Nat.one_le_of_lt hi)

theorem Walked.up (h : a.Walked i met c (unmet + 1)) (hup : a.Up c j) (hj : j ∉ met)
    (hlt : j < a.types.length) : a.Walked i (j :: met) j unmet where
  reached := h.reached.tail hup
  back k hk := by
    rcases List.mem_cons.mp hk with rfl | hk
    · exact .refl
    · exact (h.back k hk).tail hup
  once := List.nodup_cons.mpr ⟨hj, h.once⟩
  known k hk := by
    rcases List.mem_cons.mp hk with rfl | hk
    · exact hlt
    · exact h.known k hk
  count := by
    have := h.count
    rw [List.length_cons]
    omega

/-- A walk with no type left has met them all. -/
theorem Walked.all_met (h : a.Walked i met c 0) (hlt : j < a.types.length) : j ∈ met := by
  have hsub : met ⊆ List.range a.types.length := fun k hk => List.mem_range.mpr (h.known k hk)
  have hlength : (List.range a.types.length).length ≤ met.length := by
    rw [List.length_range, ← h.count]
    exact Nat.le_refl _
  have hperm := (h.once.subperm hsub).perm_of_length_le hlength
  exact hperm.mem_iff.mpr (List.mem_range.mpr hlt)

/-- What one step of a walk comes to. -/
theorem Walked.step (h : a.Walked i met c unmet) (ht : a.type? c = some t) (origin : String) :
    (t.base = none ∧ a.climb origin unmet met t = .ok []) ∨
    (∃ base, a.climb origin unmet met t = .error (.baseTypeNotFound t.name base) ∧
      a.Lacking i t.name base) ∨
    (a.climb origin unmet met t = .error (.inheritanceCycle origin) ∧ a.Circling i) ∨
    ∃ j u left, unmet = left + 1 ∧ a.Up c j ∧ a.type? j = some u ∧ a.Walked i (j :: met) j left ∧
      a.climb origin unmet met t = (a.climb origin left (j :: met) u).map (j :: ·) := by
  cases hbase : t.base with
  | none => exact .inl ⟨rfl, climb_root hbase⟩
  | some base =>
    cases hfind : a.find? base with
    | none =>
      exact .inr (.inl ⟨base, climb_lack hbase hfind, c, t, h.reached, ht, rfl, hbase, hfind⟩)
    | some j =>
      obtain ⟨u, hu⟩ := exists_type?_of_find? hfind
      have hup : a.Up c j := ⟨ht, hbase, hfind⟩
      have hlt : j < a.types.length := (List.getElem?_eq_some_iff.mp hu).1
      by_cases hj : j ∈ met
      · have hcircle : TransGen a.Up c c := .head' hup (h.back j hj)
        exact .inr (.inr (.inl ⟨climb_met hbase hfind hj, c, h.reached, hcircle⟩))
      · cases unmet with
        | zero => exact absurd (h.all_met hlt) hj
        | succ left =>
          exact .inr (.inr (.inr
            ⟨j, u, left, rfl, hup, hu, h.up hup hj hlt, climb_up hbase hfind hj hu⟩))

/-- What a walk comes to from where it stands. -/
theorem Walked.climb_cases (h : a.Walked i met c unmet) (ht : a.type? c = some t)
    (origin : String) :
    (∃ l, a.climb origin unmet met t = .ok l ∧ a.Above t l) ∨
    (∃ name base, a.climb origin unmet met t = .error (.baseTypeNotFound name base) ∧
      a.Lacking i name base) ∨
    (a.climb origin unmet met t = .error (.inheritanceCycle origin) ∧ a.Circling i) := by
  induction unmet using Nat.strongRecOn generalizing met c t with
  | ind unmet ih =>
    rcases h.step ht origin with ⟨hroot, hl⟩ | ⟨base, he, hlack⟩ | ⟨he, hcircling⟩ | hon
    · exact .inl ⟨[], hl, .root hroot⟩
    · exact .inr (.inl ⟨t.name, base, he, hlack⟩)
    · exact .inr (.inr ⟨he, hcircling⟩)
    · obtain ⟨j, u, left, rfl, ⟨ht', hbase, hfind⟩, hu, hwalked, hclimb⟩ := hon
      obtain rfl := Option.some.inj (ht.symm.trans ht')
      rw [hclimb]
      rcases ih left (Nat.lt_succ_self left) hwalked hu with
        ⟨l, hl, habove⟩ | ⟨name, base, he, hlack⟩ | ⟨he, hcircling⟩
      · exact .inl ⟨j :: l, by rw [hl]; rfl, .derived hbase hfind hu habove⟩
      · exact .inr (.inl ⟨name, base, by rw [he]; rfl, hlack⟩)
      · exact .inr (.inr ⟨by rw [he]; rfl, hcircling⟩)

/-! ### Ancestors -/

/-- What a question about ancestors comes to. -/
theorem ancestors_cases (a : Assembly) (i : TypeId) :
    (∃ l, a.ancestors i = .ok l ∧ a.Rooted i) ∨
    (∃ name base, a.ancestors i = .error (.baseTypeNotFound name base) ∧ a.Lacking i name base) ∨
    (∃ t, a.type? i = some t ∧ a.ancestors i = .error (.inheritanceCycle t.name) ∧
      a.Circling i) ∨
    (a.type? i = none ∧ a.ancestors i = .error (.unknownTypeIndex i)) := by
  cases ht : a.type? i with
  | none => exact .inr (.inr (.inr ⟨rfl, by rw [ancestors, type, ht]; rfl⟩))
  | some t =>
    have hclimb : a.ancestors i = a.climb t.name (a.types.length - 1) [i] t := by
      rw [ancestors, type, ht]
      rfl
    rw [hclimb]
    rcases (walked_start ht).climb_cases ht t.name with ⟨l, hl, habove⟩ | hlack | hcircling
    · exact .inl ⟨l, hl, habove.rooted ht⟩
    · exact .inr (.inl hlack)
    · exact .inr (.inr (.inl ⟨t, rfl, hcircling⟩))

theorem Rooted.ancestors (h : a.Rooted i) : ∃ l, a.ancestors i = .ok l := by
  rcases a.ancestors_cases i with ⟨l, hl, -⟩ | ⟨name, base, -, hlack⟩ | ⟨t, -, -, hcircling⟩ |
    ⟨ht, -⟩
  · exact ⟨l, hl⟩
  · exact absurd hlack h.not_lacking
  · exact absurd hcircling h.not_circling
  · obtain ⟨j, u, hj, hu, -⟩ := h
    exact absurd ht (type?_ne_none hj hu)

theorem Lacking.ancestors (h : a.Lacking i name base) :
    a.ancestors i = .error (.baseTypeNotFound name base) := by
  rcases a.ancestors_cases i with ⟨l, -, hroot⟩ | ⟨name', base', he, hlack⟩ |
    ⟨t, -, -, hcircling⟩ | ⟨ht, -⟩
  · exact absurd h hroot.not_lacking
  · obtain ⟨rfl, rfl⟩ := h.unique hlack
    exact he
  · exact absurd hcircling h.not_circling
  · obtain ⟨j, u, hj, hu, -⟩ := h
    exact absurd ht (type?_ne_none hj hu)

theorem Circling.ancestors (h : a.Circling i) (ht : a.type? i = some t) :
    a.ancestors i = .error (.inheritanceCycle t.name) := by
  rcases a.ancestors_cases i with ⟨l, -, hroot⟩ | ⟨name, base, -, hlack⟩ | ⟨u, hu, he, -⟩ |
    ⟨ht', -⟩
  · exact absurd h hroot.not_circling
  · exact absurd h hlack.not_circling
  · obtain rfl := Option.some.inj (ht.symm.trans hu)
    exact he
  · cases ht.symm.trans ht'

/-- What the walk upwards from a type says, and of which types it says so.  It gives the types above
exactly where one comes to a type without a base, and they are the ones on the way, nearest first,
each once and without the type itself.  It names an undeclared base and the type that has it exactly
where one comes to that type.  It says that there is a circle, and names the type where it began,
exactly where one comes to a circle, whether or not that type is on it.  It says nothing else of a
type. -/
theorem ancestors_iff (a : Assembly) (i : TypeId) :
    ((∃ l, a.ancestors i = .ok l) ↔ a.Rooted i) ∧
    (∀ l, a.ancestors i = .ok l ↔ ∃ t, a.type? i = some t ∧ a.Above t l ∧ (i :: l).Nodup) ∧
    (∀ name base, a.ancestors i = .error (.baseTypeNotFound name base) ↔
      a.Lacking i name base) ∧
    (∀ name, a.ancestors i = .error (.inheritanceCycle name) ↔
      ∃ t, a.type? i = some t ∧ t.name = name ∧ a.Circling i) ∧
    ((∃ l, a.ancestors i = .ok l) ∨
      (∃ name base, a.ancestors i = .error (.baseTypeNotFound name base)) ∨
      (∃ name, a.ancestors i = .error (.inheritanceCycle name)) ∨ a.type? i = none) := by
  refine ⟨⟨?_, fun h => h.ancestors⟩, fun l => ⟨of_ancestors, ?_⟩,
    fun name base => ⟨fun he => ?_, fun h => h.ancestors⟩, fun name => ⟨fun he => ?_, ?_⟩, ?_⟩
  · rintro ⟨l, hl⟩
    obtain ⟨t, ht, habove, -⟩ := of_ancestors hl
    exact habove.rooted ht
  · rintro ⟨t, ht, habove, -⟩
    exact ancestors_eq_ok_iff.mpr ⟨t, ht, habove⟩
  · rcases a.ancestors_cases i with ⟨l, hl, -⟩ | ⟨name', base', he', hlack⟩ | ⟨t, -, he', -⟩ |
      ⟨-, he'⟩
    · cases he.symm.trans hl
    · cases he.symm.trans he'
      exact hlack
    · cases he.symm.trans he'
    · cases he.symm.trans he'
  · rcases a.ancestors_cases i with ⟨l, hl, -⟩ | ⟨name', base', he', -⟩ | ⟨t, ht, he', hcircling⟩ |
      ⟨-, he'⟩
    · cases he.symm.trans hl
    · cases he.symm.trans he'
    · cases he.symm.trans he'
      exact ⟨t, ht, rfl, hcircling⟩
    · cases he.symm.trans he'
  · rintro ⟨t, ht, rfl, hcircling⟩
    exact hcircling.ancestors ht
  · rcases a.ancestors_cases i with ⟨l, hl, -⟩ | ⟨name, base, he, -⟩ | ⟨t, -, he, -⟩ | ⟨ht, -⟩
    · exact .inl ⟨l, hl⟩
    · exact .inr (.inl ⟨name, base, he⟩)
    · exact .inr (.inr (.inl ⟨t.name, he⟩))
    · exact .inr (.inr (.inr ht))

-- the circle is found from a type that is not on it, and that type is named
example :
    (Assembly.mk [.empty "Moth" (some "Hen"), .empty "Hen" (some "Egg"),
      .empty "Egg" (some "Hen")]).ancestors 0 = .error (.inheritanceCycle "Moth") := by
  decide +kernel

end Assembly

end RpcLoom
