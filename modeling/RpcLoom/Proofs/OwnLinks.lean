/-
RpcLoom/Proofs/OwnLinks.lean

Following all links does to a type what its own links do to it.

Design.  What following a link does is said of the link's type alone (`effect`): it
reads the code of the link's logic, and of the types above it their names and the
signatures they have.  None of that is changed by any link, since links change
code only.  So the links of other types can be passed over, whatever order all the
links are in (`followAll_own`).  No link needs to be ready for that.
-/
import RpcLoom.Proofs.Following

namespace RpcLoom

/-! ### What is seen of the types above -/

/-- A reference to the procedure of a signature on the first of some types that has one. -/
def TypeDef.nearest? (above : List TypeDef) (s : Signature) : Option MethodRef :=
  (above.find? fun t => (t.findSignature? s).isSome).map fun t => ⟨t.name, s.name, s.types⟩

namespace Assembly

variable {a b : Assembly} {i : TypeId} {above : List TypeId}

/-- The types at some positions, without their bodies. -/
def bareAt (a : Assembly) (is : List TypeId) : List TypeDef :=
  is.filterMap fun j => (a.type? j).map (·.bare)

theorem bareAt_congr (h : a.bare = b.bare) (is : List TypeId) : a.bareAt is = b.bareAt is := by
  simp only [bareAt, type?_bare_congr h]

theorem namesOf_eq (a : Assembly) (is : List TypeId) :
    a.namesOf is = (a.bareAt is).map (·.name) := by
  rw [namesOf, bareAt, List.map_filterMap]
  simp only [Option.map_map, Function.comp_def, TypeDef.bare]

/-- The search among the types above sees no body. -/
theorem findInBase?_eq (h : a.ancestors i = .ok above) (s : Signature) :
    a.findInBase? i s = .ok (TypeDef.nearest? (a.bareAt above) s) := by
  rw [findInBase?, h]
  refine congrArg Except.ok ?_
  clear h
  induction above with
  | nil => rfl
  | cons j rest ih =>
    rw [firstWith, List.findSome?_cons]
    rw [firstWith] at ih
    cases ht : a.type? j with
    | none => simpa [bareAt, ht] using ih
    | some t =>
      cases hs : t.findSignature? s with
      | none =>
        simp only [bareAt, TypeDef.nearest?, ht, List.filterMap_cons, Option.map_some,
          List.find?_cons, TypeDef.findSignature?_bare, hs] at ih ⊢
        simpa [hs] using ih
      | some id =>
        simp only [bareAt, TypeDef.nearest?, ht, hs, List.filterMap_cons, Option.map_some,
          List.find?_cons, TypeDef.findSignature?_bare, Option.isSome_some, bind, Option.bind_some]
        rfl

end Assembly

/-! ### One link -/

namespace LogicLink

variable {link : LogicLink} {a b : Assembly} {i : TypeId} {above : List TypeId} {t : TypeDef}
  {w : Weaving}

/-- What following a link makes of its type, below types of which the bodies do not matter. -/
def effect (link : LogicLink) (above : List TypeDef) (t : TypeDef) : TypeDef × Option LinkError :=
  match t.procedure? link.logic with
  | none => (t, some (.declaration (.procedureNotFound t.name link.logic)))
  | some logic =>
    match logic.body with
    | none => (t, none)
    | some body =>
      if !body.nested.any (link.isBaseCall (above.map (·.name))) then (t, none)
      else
        match TypeDef.nearest? above ⟨logic.name, link.served.types⟩ with
        | none => (t, some (.baseLogicNotFound link.typeName logic.name))
        | some ref =>
          let led := body.mapNestedM (link.retarget (above.map (·.name)) ref)
          (t.fill link.logic (led.run 0).1, none)

theorem bare_effect (link : LogicLink) (above : List TypeDef) (t : TypeDef) :
    (link.effect above t).1.bare = t.bare := by
  unfold effect
  split
  · rfl
  · split
    · rfl
    · split
      · rfl
      · split
        · rfl
        · exact TypeDef.bare_fill ..

/-- Following a link changes its own type as `effect` says, and nothing else. -/
theorem follow_eq (hi : w.assembly.find? link.typeName = some i)
    (ht : w.assembly.type? i = some t) (hab : w.assembly.ancestors i = .ok above) :
    w.follow link =
      ({ w with
          assembly := w.assembly.set i (link.effect (w.assembly.bareAt above) t).1
          log := w.log ++ said (link.effect (w.assembly.bareAt above) t).2 },
        (link.effect (w.assembly.bareAt above) t).2) := by
  have hself : w.assembly.set i t = w.assembly := Assembly.set_self ht
  have hnames : (above.filterMap fun j => (w.assembly.type? j).map (·.name)) =
      (w.assembly.bareAt above).map (·.name) := Assembly.namesOf_eq w.assembly above
  rw [Weaving.follow, redirect, effect]
  simp only [Assembly.find, hi, hab, Assembly.type, ht, TypeDef.procedure, Except.mapError, bind,
    Except.bind, hnames]
  cases hl : t.procedure? link.logic with
  | none => simp only [hself, said, Weaving.say]
  | some logic =>
    cases hb : logic.body with
    | none => simp only [hb, hself, said, List.append_nil]
    | some body =>
      simp only [hb, Assembly.findInBase?_eq hab]
      cases body.nested.any (link.isBaseCall ((w.assembly.bareAt above).map (·.name))) with
      | false => simp only [Bool.not_false, if_true, hself, said, List.append_nil]
      | true =>
        simp only [Bool.not_true, Bool.false_eq_true, if_false]
        cases TypeDef.nearest? (w.assembly.bareAt above) ⟨logic.name, link.served.types⟩ with
        | none => simp only [hself, said, Weaving.say]
        | some ref =>
          simp only [said, List.append_nil]
          rfl

/-- A link names a type that has its ancestors and the link's logic. -/
def Sound (link : LogicLink) (a : Assembly) : Prop :=
  ∃ i above t p, a.find? link.typeName = some i ∧ a.ancestors i = .ok above ∧
    a.type? i = some t ∧ t.procedure? link.logic = some p

theorem Sound.congr (h : link.Sound a) (hbare : a.bare = b.bare) : link.Sound b := by
  obtain ⟨i, above, t, p, hi, hab, ht, hp⟩ := h
  have hfaces := Assembly.faces_of_bare_eq hbare
  have htype := Assembly.type?_bare_congr hbare i
  rw [ht, Option.map_some, eq_comm, Option.map_eq_some_iff] at htype
  obtain ⟨u, hu, hut⟩ := htype
  have hlogic := TypeDef.procedure?_bare u link.logic
  rw [hut, TypeDef.procedure?_bare, hp, Option.map_some, eq_comm,
    Option.map_eq_some_iff] at hlogic
  obtain ⟨q, hq, -⟩ := hlogic
  exact ⟨i, above, u, q, by rw [← Assembly.find?_congr hfaces, hi],
    by rw [← Assembly.ancestors_congr hfaces, hab], hu, hq⟩

end LogicLink

/-! ### Failures of a type -/

/-- The type that a failure to lead base calls on is told of. -/
def LinkError.typeName? : LinkError → Option String
  | .baseLogicNotFound typeName _ => some typeName
  | .declaration _ => none

/-- The type that a failure outside the reports is told of. -/
def WeaveError.typeName? : WeaveError → Option String
  | .quotaExceeded typeName _ _ => some typeName
  | .link cause => cause.typeName?
  | .rejection _ | .synthesis _ | .declaration _ => none

namespace LogicLink

variable {link : LogicLink} {i : TypeId} {above : List TypeId} {t : TypeDef} {w : Weaving}

/-- Where the logic is there, a failure is told of the link's type. -/
theorem typeName?_effect {types : List TypeDef} {p : Procedure}
    (hp : t.procedure? link.logic = some p) {e : LinkError}
    (he : (link.effect types t).2 = some e) : e.typeName? = some link.typeName := by
  unfold effect at he
  simp only [hp] at he
  split at he
  · cases he
  · split at he
    · cases he
    · split at he
      · rw [← Option.some.inj he]
        rfl
      · cases he

/-! ### All links -/

/-- What following links of one type makes of it, and how they fail. -/
def effects (above : List TypeDef) : List LogicLink → TypeDef → TypeDef × List LinkError
  | [], t => (t, [])
  | link :: rest, t =>
    let (t, error) := link.effect above t
    let (t, errors) := effects above rest t
    (t, error.toList ++ errors)

theorem bare_effects (above : List TypeDef) (links : List LogicLink) (t : TypeDef) :
    (effects above links t).1.bare = t.bare := by
  induction links generalizing t with
  | nil => rfl
  | cons link rest ih => exact (ih (link.effect above t).1).trans (bare_effect link above t)

/-- Leading base calls on takes no body away. -/
theorem bodiless_effects {types : List TypeDef} {links : List LogicLink} {k : ProcedureId}
    {p : Procedure} (hp : (effects types links t).1.procedure? k = some p) (hbody : p.body = none) :
    t.procedure? k = some p := by
  induction links generalizing t with
  | nil => exact hp
  | cons link rest ih =>
    have hp' : (link.effect types t).1.procedure? k = some p := ih hp
    unfold effect at hp'
    split at hp'
    · exact hp'
    · split at hp'
      · exact hp'
      · split at hp'
        · exact hp'
        · split at hp'
          · exact hp'
          · -- a logic that is led on has a body, before and after
            obtain ⟨q, hq, rfl | ⟨-, rfl⟩⟩ := TypeDef.procedure?_modify_cases hp'
            · exact hq
            · cases hbody

/-- Following links changes code only. -/
theorem bare_followAll {links : List LogicLink} (hsound : ∀ link ∈ links, link.Sound w.assembly) :
    (w.followAll links).1.assembly.bare = w.assembly.bare := by
  induction links generalizing w with
  | nil => rfl
  | cons link rest ih =>
    obtain ⟨j, above', u, p, hj, hab', hu, hp⟩ := hsound link (by simp)
    have hbare : (w.follow link).1.assembly.bare = w.assembly.bare := by
      rw [follow_eq hj hu hab']
      exact Assembly.map_types_set _ hu (bare_effect ..)
    have hrun : (w.followAll (link :: rest)).1 = ((w.follow link).1.followAll rest).1 := rfl
    rw [hrun, ih fun l hl => (hsound l (by simp [hl])).congr hbare.symm, hbare]

/-- Every failure is told of some type. -/
theorem typeName?_of_mem_followAll {links : List LogicLink}
    (hsound : ∀ link ∈ links, link.Sound w.assembly) {e : LinkError}
    (he : e ∈ (w.followAll links).2) : e.typeName?.isSome = true := by
  induction links generalizing w with
  | nil => cases he
  | cons link rest ih =>
    obtain ⟨j, above', u, p, hj, hab', hu, hp⟩ := hsound link (by simp)
    have hfollow := follow_eq hj hu hab'
    have hrun : (w.followAll (link :: rest)).2 =
        (w.follow link).2.toList ++ ((w.follow link).1.followAll rest).2 := rfl
    rw [hrun] at he
    rcases List.mem_append.mp he with he | he
    · rw [hfollow, Option.mem_toList] at he
      rw [typeName?_effect hp he]
      rfl
    · refine ih (fun l hl => (hsound l (by simp [hl])).congr ?_) he
      rw [hfollow]
      exact (Assembly.map_types_set _ hu (bare_effect ..)).symm

/-- Following links does to a type what its own links do to it. -/
theorem followAll_own {links : List LogicLink} (hsound : ∀ link ∈ links, link.Sound w.assembly)
    (hi : w.assembly.find? t.name = some i) (ht : w.assembly.type? i = some t)
    (hab : w.assembly.ancestors i = .ok above) :
    (w.followAll links).1.assembly.type? i =
        some (effects (w.assembly.bareAt above) (links.filter (·.typeName == t.name)) t).1 ∧
      (w.followAll links).2.filter (·.typeName? == some t.name) =
        (effects (w.assembly.bareAt above) (links.filter (·.typeName == t.name)) t).2 := by
  induction links generalizing w t with
  | nil => exact ⟨ht, rfl⟩
  | cons link rest ih =>
    obtain ⟨j, above', u, p, hj, hab', hu, hp⟩ := hsound link (by simp)
    have hfollow := follow_eq hj hu hab'
    have hbare : (w.follow link).1.assembly.bare = w.assembly.bare := by
      rw [hfollow]
      exact Assembly.map_types_set _ hu (bare_effect ..)
    have hfaces := Assembly.faces_of_bare_eq hbare
    have hab₁ : (w.follow link).1.assembly.ancestors i = .ok above := by
      rw [Assembly.ancestors_congr hfaces, hab]
    have hfind : ∀ name, (w.follow link).1.assembly.find? name = w.assembly.find? name :=
      Assembly.find?_congr hfaces
    have hbareAt := Assembly.bareAt_congr hbare above
    have hsound' : ∀ l ∈ rest, l.Sound (w.follow link).1.assembly :=
      fun l hl => (hsound l (by simp [hl])).congr hbare.symm
    have hrun : (w.followAll (link :: rest)).1 = ((w.follow link).1.followAll rest).1 ∧
        (w.followAll (link :: rest)).2 =
          (w.follow link).2.toList ++ ((w.follow link).1.followAll rest).2 := ⟨rfl, rfl⟩
    have htold : ∀ e ∈ (w.follow link).2.toList, e.typeName? = some link.typeName := by
      intro e he
      rw [hfollow, Option.mem_toList] at he
      exact typeName?_effect hp he
    rw [hrun.1, hrun.2, List.filter_append, List.filter_cons]
    by_cases hname : link.typeName = t.name
    · -- a link of this type leads it on, and the others go on from there
      obtain rfl : j = i := Option.some.inj (hj.symm.trans (hname ▸ hi))
      obtain rfl := Option.some.inj (hu.symm.trans ht)
      obtain rfl : above' = above := Except.ok.inj (hab'.symm.trans hab)
      have ht₁ : (w.follow link).1.assembly.type? j =
          some (link.effect (w.assembly.bareAt above') u).1 := by
        rw [hfollow]
        exact Assembly.type?_set_self hu
      have hname₁ : (link.effect (w.assembly.bareAt above') u).1.name = u.name :=
        TypeDef.name_of_bare_eq (bare_effect ..)
      obtain ⟨h₁, h₂⟩ := ih hsound' (by rw [hname₁, hfind, hi]) ht₁ hab₁
      rw [hname₁, hbareAt] at h₁ h₂
      rw [if_pos (by simpa using hname), h₁, h₂]
      refine ⟨rfl, ?_⟩
      rw [List.filter_eq_self.mpr fun e he => by simp [htold e he, hname], hfollow]
      rfl
    · -- a link of another type is passed over
      have hne : j ≠ i := by
        rintro rfl
        exact hname ((name_of_find? hj hu).symm.trans (name_of_find? hi hu))
      have ht₁ : (w.follow link).1.assembly.type? i = some t := by
        rw [hfollow]
        exact (Assembly.type?_set_of_ne _ _ hne).trans ht
      obtain ⟨h₁, h₂⟩ := ih hsound' (by rw [hfind, hi]) ht₁ hab₁
      rw [hbareAt] at h₁ h₂
      rw [if_neg (by simpa using hname), h₁, h₂]
      refine ⟨rfl, ?_⟩
      rw [List.filter_eq_nil_iff.mpr fun e he => by simp [htold e he, hname], List.nil_append]

end LogicLink

end RpcLoom
