/-
RpcLoom/Proofs/Chains.lean

The types above a type, and the ids that go to them.

Design.  A walk upwards that succeeds is described without fuel by `Above`: it
has one result at most, and from every type on it the walk goes on in the same
way.  So the ids of a type begin behind all ids that a type above it can use.
The order of weaving names every type once, and only types whose walk succeeds.
-/
import Mathlib.Algebra.GroupWithZero.Nat
import Mathlib.Data.List.Perm.Subperm
import RpcLoom.Proofs.Faces

namespace RpcLoom

namespace Assembly

variable {a : Assembly} {t : TypeDef} {l l' : List TypeId}

/-- The types that a type derives from, nearest first. -/
inductive Above (a : Assembly) : TypeDef → List TypeId → Prop
  | root {t : TypeDef} (h : t.base = none) : Above a t []
  | derived {t u : TypeDef} {base : String} {i : TypeId} {l : List TypeId}
      (hbase : t.base = some base) (hfind : a.find? base = some i) (hu : a.type? i = some u)
      (h : Above a u l) : Above a t (i :: l)

theorem Above.unique (h : a.Above t l) (h' : a.Above t l') : l = l' := by
  induction h generalizing l' with
  | root h =>
    cases h' with
    | root => rfl
    | derived hbase => cases h.symm.trans hbase
  | derived hbase hfind hu _ ih =>
    cases h' with
    | root h => cases h.symm.trans hbase
    | derived hbase' hfind' hu' h' =>
      obtain rfl := Option.some.inj (hbase.symm.trans hbase')
      obtain rfl := Option.some.inj (hfind.symm.trans hfind')
      obtain rfl := Option.some.inj (hu.symm.trans hu')
      rw [ih h']

/-- From every type on a walk the walk goes on. -/
theorem Above.of_mem (h : a.Above t l) {k : TypeId} (hk : k ∈ l) :
    ∃ before u after, l = before ++ k :: after ∧ a.type? k = some u ∧ a.Above u after := by
  induction h with
  | root => cases hk
  | @derived t u base i l hbase hfind hu hl ih =>
    rcases List.mem_cons.mp hk with rfl | hk
    · exact ⟨[], u, l, rfl, hu, hl⟩
    · obtain ⟨before, v, after, rfl, hv, hafter⟩ := ih hk
      exact ⟨i :: before, v, after, rfl, hv, hafter⟩

/-- From any place on a walk goes on as the walk of the type there. -/
theorem Above.of_append {k : TypeId} {before after : List TypeId}
    (h : a.Above t (before ++ k :: after)) : ∃ u, a.type? k = some u ∧ a.Above u after := by
  induction before generalizing t with
  | nil =>
    cases h with
    | derived _ _ hu hl => exact ⟨_, hu, hl⟩
  | cons j before ih =>
    cases h with
    | derived _ _ _ hl => exact ih hl

/-! ### Climbing -/

section

variable {origin base : String} {unmet : Nat} {met : List TypeId} {u : TypeDef} {j : TypeId}

theorem exists_type?_of_find? (h : a.find? base = some j) : ∃ t, a.type? j = some t := by
  obtain ⟨hi, -, -⟩ := List.findIdx?_eq_some_iff_getElem.mp h
  exact ⟨a.types[j], List.getElem?_eq_getElem hi⟩

theorem climb_root (hbase : t.base = none) : a.climb origin unmet met t = .ok [] := by
  unfold climb
  rw [hbase]

theorem climb_lack (hbase : t.base = some base) (hfind : a.find? base = none) :
    a.climb origin unmet met t = .error (.baseTypeNotFound t.name base) := by
  unfold climb
  simp only [hbase, hfind]

theorem climb_met (hbase : t.base = some base) (hfind : a.find? base = some j) (hj : j ∈ met) :
    a.climb origin unmet met t = .error (.inheritanceCycle origin) := by
  unfold climb
  simp only [hbase, hfind, List.contains_iff_mem.mpr hj, if_true]

theorem climb_up (hbase : t.base = some base) (hfind : a.find? base = some j) (hj : j ∉ met)
    (hu : a.type? j = some u) :
    a.climb origin (unmet + 1) met t = (a.climb origin unmet (j :: met) u).map (j :: ·) := by
  have hnew : ¬ met.contains j = true := fun hmet => hj (List.contains_iff_mem.mp hmet)
  conv_lhs => unfold climb
  simp only [hbase, hfind, if_neg hnew, hu]
  rfl

theorem climb_stuck (hbase : t.base = some base) (hfind : a.find? base = some j) :
    a.climb origin 0 met t = .error (.inheritanceCycle origin) := by
  unfold climb
  simp only [hbase, hfind, ite_self]

/-- A climb succeeds if there is no base, or if it succeeds from a base that is not met yet. -/
theorem climb_eq_ok_iff :
    a.climb origin unmet met t = .ok l ↔ (t.base = none ∧ l = []) ∨
      ∃ base j u left rest, t.base = some base ∧ a.find? base = some j ∧ j ∉ met ∧
        a.type? j = some u ∧ unmet = left + 1 ∧
        a.climb origin left (j :: met) u = .ok rest ∧ l = j :: rest := by
  constructor
  · intro h
    cases hbase : t.base with
    | none => exact .inl ⟨rfl, Except.ok.inj (h.symm.trans (climb_root hbase))⟩
    | some base =>
      cases hfind : a.find? base with
      | none => cases h.symm.trans (climb_lack hbase hfind)
      | some j =>
        by_cases hj : j ∈ met
        · cases h.symm.trans (climb_met hbase hfind hj)
        obtain ⟨u, hu⟩ := exists_type?_of_find? hfind
        cases unmet with
        | zero => cases h.symm.trans (climb_stuck hbase hfind)
        | succ left =>
          rw [climb_up hbase hfind hj hu] at h
          cases hrest : a.climb origin left (j :: met) u with
          | error e =>
            rw [hrest] at h
            cases h
          | ok rest =>
            rw [hrest] at h
            exact .inr ⟨base, j, u, left, rest, rfl, hfind, hj, hu, rfl, hrest,
              (Except.ok.inj h).symm⟩
  · rintro (⟨hbase, rfl⟩ | ⟨base, j, u, left, rest, hbase, hfind, hj, hu, rfl, hrest, rfl⟩)
    · exact climb_root hbase
    · rw [climb_up hbase hfind hj hu, hrest]
      rfl

end

/-- A climb that succeeds meets new types only, each of them once. -/
theorem of_climb {origin : String} {unmet : Nat} {met : List TypeId}
    (h : a.climb origin unmet met t = .ok l) :
    a.Above t l ∧ l.Nodup ∧ ∀ i ∈ l, i ∉ met := by
  induction l generalizing unmet met t with
  | nil =>
    rcases climb_eq_ok_iff.mp h with ⟨hbase, -⟩ | ⟨_, _, _, _, _, -, -, -, -, -, -, hl⟩
    · exact ⟨.root hbase, List.nodup_nil, fun i hi => absurd hi List.not_mem_nil⟩
    · cases hl
  | cons i l ih =>
    rcases climb_eq_ok_iff.mp h with ⟨-, hl⟩ | ⟨_, _, u, _, _, hbase, hfind, hi, hu, -, hrest, hl⟩
    · cases hl
    obtain ⟨rfl, rfl⟩ := List.cons.inj hl
    obtain ⟨habove, hnodup, hnew⟩ := ih hrest
    refine ⟨.derived hbase hfind hu habove, ?_, fun k hk => ?_⟩
    · exact List.nodup_cons.mpr ⟨fun hl => hnew i hl List.mem_cons_self, hnodup⟩
    · rcases List.mem_cons.mp hk with rfl | hk
      · exact hi
      · exact fun hm => hnew k hk (List.mem_cons_of_mem i hm)

/-- What an answer to a question about ancestors says. -/
theorem of_ancestors {i : TypeId} (h : a.ancestors i = .ok l) :
    ∃ t, a.type? i = some t ∧ a.Above t l ∧ (i :: l).Nodup := by
  unfold ancestors type at h
  cases ht : a.type? i with
  | none => simp [ht, bind, Except.bind] at h
  | some t =>
    rw [ht] at h
    obtain ⟨habove, hnodup, hnew⟩ := of_climb (t := t) h
    exact ⟨t, rfl, habove, List.nodup_cons.mpr ⟨fun hi => hnew i hi (by simp), hnodup⟩⟩

/-- A walk does not come back to where it began. -/
theorem Above.not_mem {i : TypeId} (h : a.Above t l) (ht : a.type? i = some t) : i ∉ l := by
  intro hi
  obtain ⟨before, u, after, hl, hu, hafter⟩ := h.of_mem hi
  obtain rfl := Option.some.inj (ht.symm.trans hu)
  have hlength := congrArg List.length (hl.symm.trans (h.unique hafter))
  rw [List.length_append, List.length_cons] at hlength
  omega

theorem Above.nodup (h : a.Above t l) : l.Nodup := by
  induction h with
  | root => exact List.nodup_nil
  | derived _ _ hu hl ih => exact List.nodup_cons.mpr ⟨hl.not_mem hu, ih⟩

/-- A walk over types that are not met yet is climbed. -/
theorem climb_of_above (h : a.Above t l) (origin : String) {unmet : Nat} {met : List TypeId}
    (hlength : l.length ≤ unmet) (hmet : ∀ k ∈ l, k ∉ met) :
    a.climb origin unmet met t = .ok l := by
  induction h generalizing unmet met with
  | root hbase => exact climb_root hbase
  | @derived t u base i l hbase hfind hu hl ih =>
    cases unmet with
    | zero => cases hlength
    | succ unmet =>
      have hrest : a.climb origin unmet (i :: met) u = .ok l := by
        refine ih (Nat.le_of_succ_le_succ hlength) fun k hk => ?_
        rw [List.mem_cons, not_or]
        exact ⟨fun hki => hl.not_mem hu (hki ▸ hk), hmet k (List.mem_cons_of_mem i hk)⟩
      rw [climb_up hbase hfind (hmet i List.mem_cons_self) hu, hrest]
      rfl

/-- The ancestors of a type are known if the walk from it comes to an end: every base is declared,
and no type derives from itself. -/
theorem ancestors_eq_ok_iff {i : TypeId} :
    a.ancestors i = .ok l ↔ ∃ t, a.type? i = some t ∧ a.Above t l := by
  constructor
  · intro h
    obtain ⟨t, ht, habove, -⟩ := of_ancestors h
    exact ⟨t, ht, habove⟩
  · rintro ⟨t, ht, habove⟩
    have hnodup : (i :: l).Nodup := List.nodup_cons.mpr ⟨habove.not_mem ht, habove.nodup⟩
    have hknown : i :: l ⊆ List.range a.types.length := by
      intro k hk
      rw [List.mem_range]
      rcases List.mem_cons.mp hk with rfl | hk
      · exact (List.getElem?_eq_some_iff.mp ht).1
      · obtain ⟨-, u, -, -, hu, -⟩ := habove.of_mem hk
        exact (List.getElem?_eq_some_iff.mp hu).1
    have hlength := (hnodup.subperm hknown).length_le
    rw [List.length_cons, List.length_range] at hlength
    rw [ancestors, type, ht]
    refine climb_of_above habove t.name (by omega) fun k hk => ?_
    rw [List.mem_singleton]
    rintro rfl
    exact habove.not_mem ht hk

/-- The ancestors of an ancestor are those behind it. -/
theorem ancestors_of_mem {i k : TypeId} (h : a.ancestors i = .ok l) (hk : k ∈ l)
    (h' : a.ancestors k = .ok l') : ∃ before, l = before ++ k :: l' := by
  obtain ⟨t, -, habove, -⟩ := of_ancestors h
  obtain ⟨before, u, after, rfl, hu, hafter⟩ := habove.of_mem hk
  obtain ⟨u', hu', habove', -⟩ := of_ancestors h'
  obtain rfl := Option.some.inj (hu.symm.trans hu')
  exact ⟨before, by rw [hafter.unique habove']⟩

/-! ### The order of weaving -/

theorem nodup_addNew {seen new : List TypeId} (hs : seen.Nodup) (hn : new.Nodup) :
    (addNew seen new).Nodup := by
  rw [addNew, List.nodup_append]
  refine ⟨hs, hn.sublist List.filter_sublist, fun x hx y hy hxy => ?_⟩
  rw [List.mem_filter] at hy
  simp [← hxy, hx] at hy

theorem of_chain {i : TypeId} (h : a.chain i = .ok l) :
    ∃ above, a.ancestors i = .ok above ∧ l = i :: above := by
  unfold chain at h
  cases hab : a.ancestors i with
  | error e => simp [hab, bind, Except.bind] at h
  | ok above =>
    exact ⟨above, rfl, by simpa [hab, bind, Except.bind, eq_comm] using h⟩

/-- What stands behind a type in a chain is what the type derives from. -/
theorem ancestors_eq_of_chain {i k : TypeId} {before after : List TypeId}
    (h : a.chain i = .ok (before ++ k :: after)) (h' : a.ancestors k = .ok l) : after = l := by
  obtain ⟨above, hab, hl⟩ := of_chain h
  cases before with
  | nil =>
    obtain ⟨rfl, rfl⟩ := List.cons.inj hl
    exact Except.ok.inj (hab.symm.trans h')
  | cons j before =>
    obtain ⟨-, rfl⟩ := List.cons.inj hl
    obtain ⟨t, -, habove, -⟩ := of_ancestors hab
    obtain ⟨u, hu, hafter⟩ := habove.of_append
    obtain ⟨u', hu', hl', -⟩ := of_ancestors h'
    obtain rfl := Option.some.inj (hu.symm.trans hu')
    exact hafter.unique hl'

/-- What the order has gathered after some types. -/
theorem of_foldlM {is seen order : List TypeId}
    (h : is.foldlM (fun seen i => do
      let chain ← a.chain i
      Except.ok (addNew seen chain.reverse)) seen = .ok order) (hs : seen.Nodup) :
    order.Nodup ∧ (∀ i ∈ is, ∃ l, a.ancestors i = .ok l) ∧
      ∀ k ∈ order, k ∈ seen ∨ ∃ t, a.type? k = some t := by
  induction is generalizing seen with
  | nil =>
    obtain rfl : order = seen := by simpa [pure, Except.pure, eq_comm] using h
    exact ⟨hs, by simp, fun k hk => .inl hk⟩
  | cons i is ih =>
    rw [List.foldlM_cons] at h
    cases hc : a.chain i with
    | error e => simp [hc, bind, Except.bind] at h
    | ok chain =>
      obtain ⟨above, hab, rfl⟩ := of_chain hc
      obtain ⟨t, ht, habove, hnodup⟩ := of_ancestors hab
      simp only [hc, bind, Except.bind] at h
      obtain ⟨h₁, h₂, h₃⟩ := ih h (nodup_addNew hs ((List.reverse_perm _).nodup_iff.mpr hnodup))
      refine ⟨h₁, fun k hk => ?_, fun k hk => ?_⟩
      · rcases List.mem_cons.mp hk with rfl | hk
        · exact ⟨above, hab⟩
        · exact h₂ k hk
      · rcases h₃ k hk with hk | hk
        · rw [addNew, List.mem_append, List.mem_filter, List.mem_reverse, List.mem_cons] at hk
          rcases hk with hk | ⟨rfl | hk, -⟩
          · exact .inl hk
          · exact .inr ⟨t, ht⟩
          · obtain ⟨-, u, -, -, hu, -⟩ := habove.of_mem hk
            exact .inr ⟨u, hu⟩
        · exact .inr hk

/-- The order names every type once, and only types that have their ancestors. -/
theorem of_hierarchyOrder {order : List TypeId} (h : a.hierarchyOrder = .ok order) :
    order.Nodup ∧ ∀ k ∈ order, ∃ t l, a.type? k = some t ∧ a.ancestors k = .ok l := by
  obtain ⟨hnodup, hall, hmem⟩ := of_foldlM h List.nodup_nil
  refine ⟨hnodup, fun k hk => ?_⟩
  rcases hmem k hk with hk | ⟨t, ht⟩
  · cases hk
  · obtain ⟨l, hl⟩ := hall k (List.mem_range.mpr (List.getElem?_eq_some_iff.mp ht).1)
    exact ⟨t, l, ht, hl⟩

/-! ### Resolving -/

theorem chain_of_ancestors {i : TypeId} {above : List TypeId} (h : a.ancestors i = .ok above) :
    a.chain i = .ok (i :: above) := by
  rw [chain, h]
  rfl

/-- A search ends at the first type if that type has what is looked for. -/
theorem firstWith_cons_of_some {find? : TypeDef → Option ProcedureId} {i : TypeId}
    {id : ProcedureId} (ht : a.type? i = some t) (hid : find? t = some id) (is : List TypeId) :
    a.firstWith find? (i :: is) = some (i, id) := by
  rw [firstWith, List.findSome?_cons]
  simp only [ht, Option.bind_eq_bind, Option.bind_some, hid]

/-- Where every type finds the same in two assemblies, searches end alike. -/
theorem firstWith_congr {b : Assembly} {find? : TypeDef → Option ProcedureId}
    (h : ∀ i, (a.type? i).bind find? = (b.type? i).bind find?) (is : List TypeId) :
    a.firstWith find? is = b.firstWith find? is := by
  have hone : ∀ i, ((a.type? i).bind fun t => (find? t).bind fun id => some (i, id)) =
      (b.type? i).bind fun t => (find? t).bind fun id => some (i, id) := by
    intro i
    rw [← Option.bind_assoc, h i, Option.bind_assoc]
  rw [firstWith, firstWith]
  exact congrArg (is.findSome? ·) (funext hone)

/-- A reference stands for the first procedure of its signature along the chain of its owner. -/
theorem resolve_eq_ok_iff {m : MethodRef} {i : TypeId} {is : List TypeId}
    {found : TypeId × ProcedureId} (hi : a.find? m.owner = some i) (his : a.chain i = .ok is) :
    a.resolve m = .ok found ↔ a.firstWith (·.findSignature? m.signature) is = some found := by
  rw [resolve]
  simp only [find, hi, his, bind, Except.bind]
  cases a.firstWith (·.findSignature? m.signature) is <;> simp

/-- A reference to a type's own procedure leads to it. -/
theorem resolve_own {i : TypeId} {above : List TypeId} {s : Signature} {id : ProcedureId}
    (hi : a.find? t.name = some i) (ht : a.type? i = some t) (hab : a.ancestors i = .ok above)
    (hid : t.findSignature? s = some id) :
    a.resolve ⟨t.name, s.name, s.types⟩ = .ok (i, id) :=
  (resolve_eq_ok_iff hi (chain_of_ancestors hab)).mpr (firstWith_cons_of_some ht hid above)

/-! ### Counting ids -/

/-- How many ids the type at a position may need. -/
def idsOf (a : Assembly) (i : TypeId) : Nat := ((a.type? i).map (·.remoteCount)).getD 0

theorem idsOf_eq {i : TypeId} (h : a.type? i = some t) : a.idsOf i = t.remotes.length := by
  rw [idsOf, h, Option.map_some, Option.getD_some, TypeDef.remoteCount_eq]

theorem toNat_ofCount (n : Nat) : (RpcId.ofCount n).toNat = min n 4294967295 := by
  rw [RpcId.ofCount, UInt32.toNat_ofNat']
  omega

/-- Counts that stop at the largest id add up to the sum that stops there. -/
theorem toNat_foldl_addCapped (counts : List Nat) (start : RpcId) :
    ((counts.map RpcId.ofCount).foldl RpcId.addCapped start).toNat =
      min (start.toNat + counts.sum) 4294967295 := by
  have hmax : ∀ id : RpcId, id.toNat ≤ 4294967295 := fun id => by
    have := id.toNat_lt
    omega
  induction counts generalizing start with
  | nil =>
    have := hmax start
    simp only [List.map_nil, List.foldl_nil, List.sum_nil]
    omega
  | cons n rest ih =>
    rw [List.map_cons, List.foldl_cons, ih, RpcId.addCapped, toNat_ofCount, toNat_ofCount,
      List.sum_cons]
    have := hmax start
    omega

/-- The counter a type begins with: behind all ids that the types above it may need. -/
theorem of_ofAncestors {i : TypeId} {ceiling : UInt32} {counter : IdCounter}
    (h : IdCounter.ofAncestors a i ceiling = .ok counter) :
    ∃ above, a.ancestors i = .ok above ∧ counter.ceiling = ceiling ∧
      counter.next.toNat = min (above.map a.idsOf).sum 4294967295 := by
  unfold IdCounter.ofAncestors at h
  cases hab : a.ancestors i with
  | error e => simp [hab, bind, Except.bind] at h
  | ok above =>
    have hcounter : counter =
        ⟨((above.map a.idsOf).map RpcId.ofCount).foldl RpcId.addCapped 0, ceiling⟩ := by
      simpa [hab, bind, Except.bind, idsOf, List.map_map, Function.comp_def, eq_comm] using h
    refine ⟨above, rfl, by rw [hcounter], ?_⟩
    rw [hcounter, toNat_foldl_addCapped]
    simp

theorem ofAncestors_of_ancestors {i : TypeId} {above : List TypeId}
    (h : a.ancestors i = .ok above) (ceiling : UInt32) :
    ∃ counter, IdCounter.ofAncestors a i ceiling = .ok counter := by
  rw [IdCounter.ofAncestors, h]
  exact ⟨_, rfl⟩

end Assembly

end RpcLoom
