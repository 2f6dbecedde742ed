/-
RpcLoom/Proofs/BaseFirst.lean

The order of weaving is a sorting of the types.

Design.  A type enters the order when the first of its line is reached: itself,
or a type that derives from it and is declared earlier.  Types that enter
together stand on one chain and enter from its root downwards.  So after `k`
types the order has exactly the types whose line begins before `k`, sorted by
where it begins and then by depth.  Two types never agree in both, so a list
of all types is sorted in one way only.  Gathering stops at the first type
whose walk upwards does not come to an end.
-/
import Mathlib.Data.List.Pairwise
import RpcLoom.Proofs.Faultless

namespace RpcLoom

namespace Assembly

variable {a : Assembly} {t : TypeDef} {i j k : Nat} {l seen order : List TypeId}

/-! ### The line of a type -/

/-- The types that a type derives from, nearest first, if the walk to them comes to an end. -/
def bases (a : Assembly) (i : TypeId) : List TypeId := (a.ancestors i).toOption.getD []

/-- How deep a type stands in the tree of inheritance. -/
def depth (a : Assembly) (i : TypeId) : Nat := (a.bases i).length

/-- The types that derive from a type, in the order of their declaration. -/
def descendants (a : Assembly) (i : TypeId) : List TypeId :=
  (List.range a.types.length).filter fun k => (a.bases k).contains i

/-- Where the line of a type begins: the smallest position among it and the types that derive from
it. -/
def foremost (a : Assembly) (i : TypeId) : Nat :=
  (i :: a.descendants i).min (List.cons_ne_nil _ _)

theorem bases_eq (h : a.ancestors i = .ok l) : a.bases i = l := by
  rw [bases, h]
  rfl

theorem mem_descendants : k ∈ a.descendants i ↔ k < a.types.length ∧ i ∈ a.bases k := by
  rw [descendants, List.mem_filter, List.mem_range, List.contains_iff_mem]

/-- The line of a type begins before a position if the type or one that derives from it stands
there. -/
theorem foremost_lt_iff :
    a.foremost i < k ↔ i < k ∨ ∃ j < k, j < a.types.length ∧ i ∈ a.bases j := by
  constructor
  · intro h
    rcases List.mem_cons.mp (List.min_mem (List.cons_ne_nil i (a.descendants i))) with hm | hm
    · exact .inl (hm ▸ h)
    · obtain ⟨hlength, hbases⟩ := mem_descendants.mp hm
      exact .inr ⟨a.foremost i, h, hlength, hbases⟩
  · rintro (h | ⟨j, hj, hlength, hbases⟩)
    · exact Nat.lt_of_le_of_lt (List.min_le_of_mem List.mem_cons_self) h
    · exact Nat.lt_of_le_of_lt
        (List.min_le_of_mem (List.mem_cons_of_mem i (mem_descendants.mpr ⟨hlength, hbases⟩))) hj

/-- What stands above a type stands above the types that derive from that type. -/
theorem bases_trans (h : j ∈ a.bases i) (h' : k ∈ a.bases j) : k ∈ a.bases i := by
  cases hi : a.ancestors i with
  | error e => simp [bases, hi, Except.toOption] at h
  | ok l =>
    cases hj : a.ancestors j with
    | error e => simp [bases, hj, Except.toOption] at h'
    | ok l' =>
      rw [bases_eq hi] at h ⊢
      rw [bases_eq hj] at h'
      obtain ⟨before, rfl⟩ := ancestors_of_mem hi h hj
      exact List.mem_append_right _ (List.mem_cons_of_mem j h')

/-- The line of a base begins no later than that of a type that derives from it. -/
theorem foremost_le_of_mem_bases (hi : i < a.types.length) (h : j ∈ a.bases i) :
    a.foremost j ≤ a.foremost i := by
  have hline : a.foremost i < a.foremost i + 1 := Nat.lt_succ_self _
  refine Nat.le_of_lt_succ (foremost_lt_iff.mpr (.inr ?_))
  rcases foremost_lt_iff.mp hline with hself | ⟨k, hk, hlength, hbases⟩
  · exact ⟨i, hself, hi, h⟩
  · exact ⟨k, hk, hlength, bases_trans hbases h⟩

/-- Along a chain the types stand less and less deep. -/
theorem Above.pairwise_depth (h : a.Above t l) (ht : a.type? i = some t) :
    (i :: l).Pairwise fun x y => a.depth y < a.depth x := by
  induction h generalizing i with
  | root => exact List.pairwise_singleton ..
  | @derived t u base j l hbase hfind hu habove ih =>
    refine List.pairwise_cons.mpr ⟨fun y hy => ?_, ih hu⟩
    have hchain : a.Above t (j :: l) := .derived hbase hfind hu habove
    obtain ⟨before, v, after, hl, hv, hafter⟩ := hchain.of_mem hy
    rw [depth, depth, bases_eq (ancestors_eq_ok_iff.mpr ⟨v, hv, hafter⟩),
      bases_eq (ancestors_eq_ok_iff.mpr ⟨t, ht, hchain⟩), hl, List.length_append, List.length_cons]
    omega

/-! ### Sorting -/

/-- Whether a type stands before another one, or level with it: its line begins earlier, or at the
same type and it is no deeper. -/
def noLater (a : Assembly) (i j : TypeId) : Bool :=
  a.foremost i < a.foremost j || (a.foremost i == a.foremost j && a.depth i ≤ a.depth j)

/-- A type stands before another one and not level with it. -/
def Earlier (a : Assembly) (i j : TypeId) : Prop :=
  a.foremost i < a.foremost j ∨ (a.foremost i = a.foremost j ∧ a.depth i < a.depth j)

theorem noLater_iff :
    a.noLater i j = true ↔
      a.foremost i < a.foremost j ∨ (a.foremost i = a.foremost j ∧ a.depth i ≤ a.depth j) := by
  simp [noLater]

theorem Earlier.noLater (h : a.Earlier i j) : a.noLater i j = true :=
  noLater_iff.mpr (h.imp_right fun hsame => ⟨hsame.1, Nat.le_of_lt hsame.2⟩)

theorem Earlier.not_noLater (h : a.Earlier i j) : a.noLater j i ≠ true := by
  rw [Ne, noLater_iff]
  rcases h with h | h <;> omega

/-- The positions sorted. -/
theorem pairwise_sorted (is : List TypeId) :
    (is.mergeSort a.noLater).Pairwise fun i j => a.noLater i j = true := by
  refine List.pairwise_mergeSort (fun i j k hij hjk => ?_) (fun i j => ?_) is
  · rw [noLater_iff] at hij hjk ⊢
    omega
  · rw [Bool.or_eq_true, noLater_iff, noLater_iff]
    omega

/-- A list in which every type stands before those behind it is the sorting of any list of the same
types. -/
theorem eq_mergeSort {is : List TypeId} (hsorted : order.Pairwise a.Earlier)
    (hperm : order.Perm is) : order = is.mergeSort a.noLater := by
  have hdiffer : order.Pairwise fun i j => ¬(a.noLater i j = true ∧ a.noLater j i = true) :=
    hsorted.imp fun h hboth => h.not_noLater hboth.2
  have : Std.Symm fun i j => ¬(a.noLater i j = true ∧ a.noLater j i = true) :=
    ⟨fun _ _ h hboth => h hboth.symm⟩
  have hperm' := hperm.trans (List.mergeSort_perm is a.noLater).symm
  have heq : ∀ i j, i ∈ order → j ∈ is.mergeSort a.noLater → a.noLater i j = true →
      a.noLater j i = true → i = j := by
    intro i j hi hj hij hji
    by_contra hne
    exact hdiffer.forall hi (hperm'.mem_iff.mpr hj) hne ⟨hij, hji⟩
  exact hperm'.eq_of_pairwise heq (hsorted.imp Earlier.noLater) (pairwise_sorted is)

/-! ### Gathering -/

/-- What the order does with one type: its chain is added from the root, as far as it is new. -/
def gather (a : Assembly) (seen : List TypeId) (i : TypeId) : Except DeclError (List TypeId) := do
  let chain ← a.chain i
  .ok (addNew seen chain.reverse)

theorem hierarchyOrder_eq :
    a.hierarchyOrder = (List.range a.types.length).foldlM a.gather [] := rfl

/-- The order after the types before a position: those whose line begins there, sorted. -/
structure Gathered (a : Assembly) (k : Nat) (seen : List TypeId) : Prop where
  mem : ∀ i, i ∈ seen ↔ a.foremost i < k
  sorted : seen.Pairwise a.Earlier

theorem Gathered.zero : a.Gathered 0 [] := ⟨by simp, List.Pairwise.nil⟩

/-- What a chain adds are the types whose line begins at its lower end. -/
theorem Gathered.mem_new (h : a.Gathered k seen) (hk : k < a.types.length)
    (hl : a.ancestors k = .ok l) :
    i ∈ (k :: l).reverse.filter (!seen.contains ·) ↔ a.foremost i = k := by
  have hbefore : i ∈ seen ↔ a.foremost i < k := h.mem i
  have hupto : a.foremost i < k + 1 ↔ a.foremost i < k ∨ i ∈ k :: l := by
    rw [foremost_lt_iff, foremost_lt_iff, List.mem_cons, ← bases_eq hl]
    constructor
    · rintro (hi | ⟨j, hj, hlength, hbases⟩)
      · rcases Nat.lt_succ_iff_lt_or_eq.mp hi with hi | rfl
        · exact .inl (.inl hi)
        · exact .inr (.inl rfl)
      · rcases Nat.lt_succ_iff_lt_or_eq.mp hj with hj | rfl
        · exact .inl (.inr ⟨j, hj, hlength, hbases⟩)
        · exact .inr (.inr hbases)
    · rintro ((hi | ⟨j, hj, hlength, hbases⟩) | rfl | hbases)
      · exact .inl (Nat.lt_succ_of_lt hi)
      · exact .inr ⟨j, Nat.lt_succ_of_lt hj, hlength, hbases⟩
      · exact .inl (Nat.lt_succ_self i)
      · exact .inr ⟨k, Nat.lt_succ_self k, hk, hbases⟩
  have hnew : (!seen.contains i) = true ↔ i ∉ seen := by simp
  rw [List.mem_filter, List.mem_reverse, hnew, hbefore]
  constructor
  · rintro ⟨hi, hlt⟩
    have := hupto.mpr (.inr hi)
    omega
  · rintro rfl
    exact ⟨(hupto.mp (Nat.lt_succ_self _)).resolve_left (Nat.lt_irrefl _), Nat.lt_irrefl _⟩

/-- A type whose chain is known takes the order one position further. -/
theorem Gathered.succ (h : a.Gathered k seen) (hl : a.ancestors k = .ok l) :
    a.Gathered (k + 1) (addNew seen (k :: l).reverse) := by
  obtain ⟨t, ht, habove, -⟩ := of_ancestors hl
  have hk : k < a.types.length := (List.getElem?_eq_some_iff.mp ht).1
  constructor
  · intro i
    rw [addNew, List.mem_append, h.mem_new hk hl, h.mem]
    exact Nat.lt_succ_iff_lt_or_eq.symm
  · rw [addNew, List.pairwise_append]
    refine ⟨h.sorted, ?_, fun i hi j hj => .inl ?_⟩
    · have hdepth : ((k :: l).reverse.filter (!seen.contains ·)).Pairwise
          fun x y => a.depth x < a.depth y :=
        (List.pairwise_reverse.mpr (habove.pairwise_depth ht)).sublist List.filter_sublist
      refine hdepth.imp_of_mem fun hi hj hlt => .inr ⟨?_, hlt⟩
      rw [(h.mem_new hk hl).mp hi, (h.mem_new hk hl).mp hj]
    · rw [(h.mem_new hk hl).mp hj]
      exact (h.mem i).mp hi

/-- Gathering over the types before a position: all of them have their chain, or the first that has
none says why. -/
theorem gather_cases (k : Nat) :
    (∃ seen, (List.range k).foldlM a.gather [] = .ok seen ∧ a.Gathered k seen ∧
      ∀ i < k, ∃ l, a.ancestors i = .ok l) ∨
    ∃ i < k, ∃ e, (List.range k).foldlM a.gather [] = .error e ∧ a.ancestors i = .error e ∧
      ∀ j < i, ∃ l, a.ancestors j = .ok l := by
  induction k with
  | zero => exact .inl ⟨[], rfl, .zero, by simp⟩
  | succ k ih =>
    rw [List.range_succ, List.foldlM_append]
    rcases ih with ⟨seen, hseen, hgathered, hall⟩ | ⟨i, hi, e, he, hbad, hfirst⟩
    · rw [hseen]
      cases hl : a.ancestors k with
      | error e =>
        refine .inr ⟨k, Nat.lt_succ_self k, e, ?_, hl, hall⟩
        simp [gather, chain, hl, bind, Except.bind]
      | ok l =>
        refine .inl ⟨_, ?_, hgathered.succ hl, fun i hi => ?_⟩
        · simp [gather, chain, hl, bind, Except.bind, pure, Except.pure]
        · rcases Nat.lt_succ_iff_lt_or_eq.mp hi with hi | rfl
          · exact hall i hi
          · exact ⟨l, hl⟩
    · exact .inr ⟨i, Nat.lt_succ_of_lt hi, e, by rw [he]; rfl, hbad, hfirst⟩

/-! ### The order -/

/-- The chain of every type comes to an end and has declared types only. -/
def Grounded (a : Assembly) : Prop := ∀ i t, a.type? i = some t → ∃ l, a.Above t l

/-- An order of all types, bases first: by the earliest type on the line of each, and along a line
by depth. -/
structure BaseFirst (a : Assembly) (order : List TypeId) : Prop where
  once : order.Perm (List.range a.types.length)
  bases : ∀ before i after, order = before ++ i :: after → a.bases i ⊆ before
  sorted : order = (List.range a.types.length).mergeSort a.noLater

theorem Gathered.foremost_lt (h : a.Gathered a.types.length order)
    (hall : ∀ i < a.types.length, ∃ l, a.ancestors i = .ok l) (hi : i ∈ order) :
    i < a.types.length := by
  rcases foremost_lt_iff.mp ((h.mem i).mp hi) with hi | ⟨j, -, hj, hbases⟩
  · exact hi
  · obtain ⟨l, hl⟩ := hall j hj
    obtain ⟨t, -, habove, -⟩ := of_ancestors hl
    obtain ⟨-, u, -, -, hu, -⟩ := habove.of_mem (bases_eq hl ▸ hbases)
    exact (List.getElem?_eq_some_iff.mp hu).1

/-- What is gathered when all types have been taken. -/
theorem Gathered.baseFirst (h : a.Gathered a.types.length order)
    (hall : ∀ i < a.types.length, ∃ l, a.ancestors i = .ok l) : a.BaseFirst order := by
  have hknown : ∀ i, i ∈ order ↔ i < a.types.length := fun i =>
    ⟨h.foremost_lt hall, fun hi => (h.mem i).mpr (foremost_lt_iff.mpr (.inl hi))⟩
  have hnodup : order.Nodup := h.sorted.imp fun hij heq => by
    subst heq
    exact hij.not_noLater hij.noLater
  have hperm : order.Perm (List.range a.types.length) :=
    (List.perm_ext_iff_of_nodup hnodup List.nodup_range).mpr fun i => by
      rw [hknown, List.mem_range]
  refine ⟨hperm, fun before i after horder j hj => ?_, eq_mergeSort h.sorted hperm⟩
  have hi : i < a.types.length := (hknown i).mp (by simp [horder])
  have hearlier : a.Earlier j i := by
    obtain ⟨l, hl⟩ := hall i hi
    obtain ⟨t, ht, habove, -⟩ := of_ancestors hl
    have hdepth := List.pairwise_cons.mp (habove.pairwise_depth ht)
    rcases Nat.lt_or_eq_of_le (foremost_le_of_mem_bases hi hj) with hlt | hsame
    · exact .inl hlt
    · exact .inr ⟨hsame, hdepth.1 j (bases_eq hl ▸ hj)⟩
  -- a base has entered, and what stands behind a type is not earlier than it
  have hmem : j ∈ order :=
    (h.mem j).mpr (Nat.lt_of_le_of_lt (foremost_le_of_mem_bases hi hj)
      (foremost_lt_iff.mpr (.inl hi)))
  have hbehind := List.pairwise_cons.mp (List.pairwise_append.mp (horder ▸ h.sorted)).2.1
  rw [horder, List.mem_append, List.mem_cons] at hmem
  rcases hmem with hmem | rfl | hmem
  · exact hmem
  · exact absurd hearlier.noLater hearlier.not_noLater
  · exact absurd (hbehind.1 j hmem).noLater hearlier.not_noLater

theorem grounded_iff : a.Grounded ↔ ∀ i < a.types.length, ∃ l, a.ancestors i = .ok l := by
  constructor
  · intro h i hi
    obtain ⟨t, ht⟩ : ∃ t, a.type? i = some t := ⟨_, List.getElem?_eq_getElem hi⟩
    obtain ⟨l, hl⟩ := h i t ht
    exact ⟨l, ancestors_eq_ok_iff.mpr ⟨t, ht, hl⟩⟩
  · intro h i t ht
    obtain ⟨l, hl⟩ := h i (List.getElem?_eq_some_iff.mp ht).1
    obtain ⟨u, hu, habove⟩ := ancestors_eq_ok_iff.mp hl
    obtain rfl := Option.some.inj (ht.symm.trans hu)
    exact ⟨l, habove⟩

/-- Of all types this is the first whose chain is bad, and this is what is said of it. -/
structure FirstBad (a : Assembly) (i : TypeId) (e : DeclError) : Prop where
  bad : ∃ t, a.type? i = some t ∧ ¬∃ l, a.Above t l
  first : ∀ j < i, ∀ u, a.type? j = some u → ∃ l, a.Above u l
  said : a.ancestors i = .error e

theorem FirstBad.unique {e e' : DeclError} (h : a.FirstBad i e) (h' : a.FirstBad j e') :
    e = e' := by
  obtain ⟨t, ht, hbad⟩ := h.bad
  obtain ⟨u, hu, hbad'⟩ := h'.bad
  obtain rfl : i = j := by
    rcases Nat.lt_trichotomy i j with hij | rfl | hij
    · exact absurd (h'.first i hij t ht) hbad
    · rfl
    · exact absurd (h.first j hij u hu) hbad'
  exact Except.error.inj (h.said.symm.trans h'.said)

theorem FirstBad.not_grounded {e : DeclError} (h : a.FirstBad i e) : ¬ a.Grounded := by
  intro hground
  obtain ⟨t, ht, hbad⟩ := h.bad
  exact hbad (hground i t ht)

/-- The order either has all types in their places or fails with the first bad chain. -/
theorem hierarchyOrder_cases (a : Assembly) :
    (∃ order, a.hierarchyOrder = .ok order ∧ a.Grounded ∧ a.BaseFirst order) ∨
    ∃ i e, a.hierarchyOrder = .error e ∧ a.FirstBad i e := by
  rw [hierarchyOrder_eq]
  rcases gather_cases (a := a) a.types.length with
    ⟨order, horder, hgathered, hall⟩ | ⟨i, hi, e, he, hsaid, hfirst⟩
  · exact .inl ⟨order, horder, grounded_iff.mpr hall, hgathered.baseFirst hall⟩
  · refine .inr ⟨i, e, he, ⟨a.types[i], List.getElem?_eq_getElem hi, ?_⟩, ?_, hsaid⟩
    · rintro ⟨l, habove⟩
      have hl := ancestors_eq_ok_iff.mpr ⟨_, List.getElem?_eq_getElem hi, habove⟩
      cases hsaid.symm.trans hl
    · intro j hj u hu
      obtain ⟨l, hl⟩ := hfirst j hj
      obtain ⟨u', hu', habove⟩ := ancestors_eq_ok_iff.mp hl
      obtain rfl := Option.some.inj (hu.symm.trans hu')
      exact ⟨l, habove⟩

/-- The order exists exactly if every chain comes to an end over declared types.  It is then the
one that has every type once and behind its bases, sorted by the earliest type on its line and then
by depth; and otherwise the first type with a bad chain says why. -/
theorem hierarchyOrder_sorts (a : Assembly) :
    ((∃ order, a.hierarchyOrder = .ok order) ↔ a.Grounded) ∧
    (∀ order, a.hierarchyOrder = .ok order ↔ a.Grounded ∧ a.BaseFirst order) ∧
    ∀ e, a.hierarchyOrder = .error e ↔ ∃ i, a.FirstBad i e := by
  rcases hierarchyOrder_cases a with ⟨order, horder, hground, hfirst⟩ | ⟨i, e, he, hbad⟩
  · rw [horder]
    refine ⟨⟨fun _ => hground, fun _ => ⟨order, rfl⟩⟩, fun order' => ⟨?_, ?_⟩, fun e => ⟨?_, ?_⟩⟩
    · rintro ⟨⟩
      exact ⟨hground, hfirst⟩
    · rintro ⟨-, hfirst'⟩
      rw [hfirst.sorted, hfirst'.sorted]
    · rintro ⟨⟩
    · rintro ⟨i, hbad⟩
      exact absurd hground hbad.not_grounded
  · rw [he]
    refine ⟨⟨?_, ?_⟩, fun order => ⟨?_, ?_⟩, fun e' => ⟨?_, ?_⟩⟩
    · rintro ⟨_, ⟨⟩⟩
    · exact fun hground => absurd hground hbad.not_grounded
    · rintro ⟨⟩
    · exact fun h => absurd h.1 hbad.not_grounded
    · rintro ⟨⟩
      exact ⟨i, hbad⟩
    · rintro ⟨j, hbad'⟩
      rw [hbad.unique hbad']

-- a type whose bases come later takes them along, and `Twig` stays where it is declared
example :
    (Assembly.mk [.empty "Leaf" (some "Limb"), .empty "Stone" none, .empty "Limb" (some "Root"),
      .empty "Root" none, .empty "Twig" (some "Limb")]).hierarchyOrder = .ok [3, 2, 0, 1, 4] := by
  decide +kernel

end Assembly

end RpcLoom
